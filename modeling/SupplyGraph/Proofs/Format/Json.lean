import SupplyGraph.Format.Json
import SupplyGraph.Proofs.Format.Bytes
import Mathlib.Data.List.TakeWhile

/-!
Every document that is written is read back as its value.
-/

namespace SupplyGraph.Json

theorem readString_escape {bytes content after : Bytes} (read : readEscape bytes = some (content, after)) :
    readString (backslash :: bytes) = (readString after).map fun (others, rest) => (content ++ others, rest) := by
  rw [readString, if_neg (by decide), if_pos rfl]
  split
  · rename_i failed
    cases read.symm.trans failed
  · rename_i found
    obtain ⟨rfl, rfl⟩ := Prod.mk.inj (Option.some.inj (read.symm.trans found))
    rfl

theorem readEscape_letter {letter byte : UInt8} (notUnit : letter ≠ 0x75)
    (means : unescape? letter = some byte) (rest : Bytes) :
    readEscape (letter :: rest) = some ([byte], rest) := by
  rw [readEscape, if_neg notUnit, means]
  rfl

theorem hexValue?_hexDigit {n : Nat} (small : n < 16) : hexValue? (hexDigit n) = some n := by
  have all : ∀ n < 16, hexValue? (hexDigit n) = some n := by decide
  exact all n small

theorem readEscape_unit {byte : UInt8} (control : byte < 0x20) (rest : Bytes) :
    readEscape (0x75 :: 0x30 :: 0x30 :: hexDigit (byte.toNat / 16) :: hexDigit (byte.toNat % 16) :: rest) =
      some ([byte], rest) := by
  have small : byte.toNat < 32 := UInt8.lt_iff_toNat_lt.1 control
  have first : hexValue? (hexDigit (byte.toNat / 16)) = some (byte.toNat / 16) := hexValue?_hexDigit (by omega)
  have second : hexValue? (hexDigit (byte.toNat % 16)) = some (byte.toNat % 16) := hexValue?_hexDigit (by omega)
  have zero : hexValue? 0x30 = some 0 := rfl
  have value : ((0 * 16 + 0) * 16 + byte.toNat / 16) * 16 + byte.toNat % 16 = byte.toNat := by omega
  have noPair : readPair byte.toNat rest = none := by
    unfold readPair
    split
    · rw [if_neg]
      simp only [isHighHalf, Bool.and_eq_true, decide_eq_true_eq]
      omega
    · rfl
  have unit : readUnit (0x30 :: 0x30 :: hexDigit (byte.toNat / 16) :: hexDigit (byte.toNat % 16) :: rest) =
      some (byte.toNat, rest) := by
    simp only [readUnit, zero, first, second, bind, Option.bind, value]
  have bytes : codePointBytes byte.toNat = [byte] := by
    rw [codePointBytes, if_pos (by omega), UInt8.ofNat_toNat]
  rw [readEscape, if_pos rfl, readEscapedUnit, unit]
  simp only [noPair, bytes]

theorem readString_plain {byte : UInt8} (notQuote : byte ≠ quote) (notBackslash : byte ≠ backslash)
    (printable : ¬byte < 0x20) (rest : Bytes) :
    readString (byte :: rest) = (readString rest).map fun (others, rest) => (byte :: others, rest) := by
  rw [readString, if_neg notQuote, if_neg notBackslash, if_neg printable]

theorem readString_letter {letter byte : UInt8} (notUnit : letter ≠ 0x75) (means : unescape? letter = some byte)
    (rest : Bytes) : readString (backslash :: letter :: rest) =
      (readString rest).map fun (others, rest) => (byte :: others, rest) :=
  readString_escape (readEscape_letter notUnit means rest)

theorem readString_escapeByte (byte : UInt8) (rest : Bytes) :
    readString (escapeByte byte ++ rest) = (readString rest).map fun (others, rest) => (byte :: others, rest) := by
  unfold escapeByte
  split_ifs with isQuote isBackslash isBackspace isTab isNewline isFeed isReturn control
  · subst isQuote
    exact readString_letter (by decide) rfl rest
  · subst isBackslash
    exact readString_letter (by decide) rfl rest
  · subst isBackspace
    exact readString_letter (by decide) rfl rest
  · subst isTab
    exact readString_letter (by decide) rfl rest
  · subst isNewline
    exact readString_letter (by decide) rfl rest
  · subst isFeed
    exact readString_letter (by decide) rfl rest
  · subst isReturn
    exact readString_letter (by decide) rfl rest
  · exact readString_escape (readEscape_unit control rest)
  · exact readString_plain isQuote isBackslash control rest

theorem readString_escaped (content rest : Bytes) :
    readString (content.flatMap escapeByte ++ quote :: rest) = some (content, rest) := by
  induction content with
  | nil => rw [List.flatMap_nil, List.nil_append, readString, if_pos rfl]
  | cons byte content ih => rw [List.flatMap_cons, List.append_assoc, readString_escapeByte, ih]; rfl

def digitByte (n : Nat) : UInt8 := UInt8.ofNat (Nat.digitChar n).toNat

theorem digitByte_spec {n : Nat} (small : n < 10) : String.utf8EncodeChar (Nat.digitChar n) = [digitByte n] ∧
    isDigit (digitByte n) ∧ (digitByte n).toNat - 0x30 = n ∧ (digitByte n = 0x30 → n = 0) := by
  have all : ∀ n < 10, String.utf8EncodeChar (Nat.digitChar n) = [digitByte n] ∧
      isDigit (digitByte n) ∧ (digitByte n).toNat - 0x30 = n ∧ (digitByte n = 0x30 → n = 0) := by decide
  exact all n small

structure Decimal (n : Nat) (digits : Bytes) : Prop where
  nonempty : digits ≠ []
  all : ∀ byte ∈ digits, isDigit byte
  value : decimalValue digits = n
  first : digits.head? = some 0x30 → n = 0 ∧ digits.length = 1

theorem decimal_ofString (n : Nat) : Decimal n (Bytes.ofString (toString n)) := by
  rw [Nat.toString_eq_ofList_toDigits, Bytes.ofString_ofList]
  induction n using Nat.strongRecOn with
  | ind n ih =>
      by_cases small : n < 10
      · obtain ⟨encoded, isDigit, value, zero⟩ := digitByte_spec small
        rw [Nat.toDigits_of_lt_base small, List.flatMap_singleton, encoded]
        constructor
        case nonempty => exact List.cons_ne_nil _ _
        case all => exact fun byte member => List.mem_singleton.1 member ▸ isDigit
        case value => simpa [decimalValue] using value
        case first => exact fun isZero => ⟨zero (Option.some.inj isZero), rfl⟩
      · have before := ih (n / 10) (by omega)
        obtain ⟨encoded, isDigit, value, -⟩ := digitByte_spec (Nat.mod_lt n (by decide : 0 < 10))
        rw [Nat.toDigits_of_base_le (by decide) (Nat.not_lt.1 small), List.flatMap_append,
          List.flatMap_singleton, encoded]
        constructor
        case nonempty => simp
        case all =>
          intro byte member
          rcases List.mem_append.1 member with early | last
          · exact before.all byte early
          · exact List.mem_singleton.1 last ▸ isDigit
        case value =>
          have earlier := before.value
          simp only [decimalValue, List.foldl_append, List.foldl_cons, List.foldl_nil] at earlier ⊢
          rw [earlier, value]
          omega
        case first =>
          intro isZero
          rw [List.head?_append, Option.or_of_isSome (List.isSome_head?.2 before.nonempty)] at isZero
          have none := (before.first isZero).1
          omega

theorem takeWhile_of_all {α : Type} {keep : α → Bool} {items : List α} (all : ∀ item ∈ items, keep item)
    {rest : List α}
    (stops : ∀ item, rest.head? = some item → ¬keep item) : (items ++ rest).takeWhile keep = items := by
  induction items with
  | nil =>
      cases rest with
      | nil => rfl
      | cons first rest => rw [List.nil_append, List.takeWhile_cons_of_neg (stops first rfl)]
  | cons first items ih =>
      rw [List.cons_append, List.takeWhile_cons_of_pos (all first (List.mem_cons_self ..)),
        ih fun item member => all item (List.mem_cons_of_mem _ member)]

theorem dropWhile_of_all {α : Type} {keep : α → Bool} {items : List α} (all : ∀ item ∈ items, keep item)
    {rest : List α}
    (stops : ∀ item, rest.head? = some item → ¬keep item) : (items ++ rest).dropWhile keep = rest := by
  have both := List.takeWhile_append_dropWhile (p := keep) (l := items ++ rest)
  rw [takeWhile_of_all all stops] at both
  exact List.append_cancel_left both

theorem number?_decimal {n : Nat} {digits : Bytes} (decimal : Decimal n digits) :
    number? digits = some (integerValue false n) := by
  have positive : digits.head? ≠ some 0x2D := by
    intro isSign
    have isDigit := decimal.all 0x2D (List.mem_of_head? isSign)
    exact absurd isDigit (by decide)
  have whole : digits.takeWhile isDigit = digits := List.takeWhile_eq_self_iff.2 decimal.all
  have rest : digits.dropWhile isDigit = [] := List.dropWhile_eq_nil_iff.2 decimal.all
  have proper : (digits.isEmpty || (digits.head? == some 0x30 && digits.length != 1)) = false := by
    rw [Bool.or_eq_false_iff, Bool.and_eq_false_iff, List.isEmpty_eq_false_iff]
    refine ⟨decimal.nonempty, ?_⟩
    by_cases isZero : digits.head? = some 0x30
    · exact Or.inr (by simpa using (decimal.first isZero).2)
    · exact Or.inl (by simpa using isZero)
  have noSign : (digits.head? == some 0x2D) = false := by simpa using positive
  simp only [number?, noSign, Bool.false_eq_true, if_false, whole, rest, proper, decimal.value]
  rfl

def Stops (rest : Bytes) : Prop := ∀ byte, rest.head? = some byte → ¬isNumberByte byte ∧ ¬isLowercase byte

theorem tokens_punctuation {byte : UInt8} {token : Token} (notSpace : isSpace byte = false)
    (means : punctuation? byte = some token) (rest : Bytes) :
    tokens (byte :: rest) = (tokens rest).map (token :: ·) := by
  rw [tokens, notSpace, means, if_neg Bool.false_ne_true]
  cases tokens rest <;> rfl

theorem tokens_text (text : String) (rest : Bytes) :
    tokens (writeText text ++ rest) = (tokens rest).map (.scalar (.text text) :: ·) := by
  have content : Value.ofContent (Bytes.ofString text) = .text text := by
    rw [Value.ofContent, Bytes.toString?_ofString]
  have read : readString ((Bytes.ofString text).flatMap escapeByte ++ ([quote] ++ rest)) =
      some (Bytes.ofString text, rest) := readString_escaped _ rest
  have noPunctuation : punctuation? quote = none := by decide
  rw [writeText, List.append_assoc, List.append_assoc, List.cons_append, tokens, if_neg (by decide), noPunctuation]
  simp only [List.nil_append, if_true]
  split
  · rename_i failed
    cases read.symm.trans failed
  · rename_i found
    obtain ⟨rfl, rfl⟩ := Prod.mk.inj (Option.some.inj (read.symm.trans found))
    rw [content]
    cases tokens rest <;> rfl

theorem isNumberByte_of_isDigit {byte : UInt8} (digit : isDigit byte) : isNumberByte byte := by
  simp only [isNumberByte, digit, Bool.true_or]

theorem digit_starts {byte : UInt8} (digit : isDigit byte) :
    isSpace byte = false ∧ (punctuation? byte).isNone ∧ byte ≠ quote := by
  have all : ∀ n < 10, isSpace (UInt8.ofNat (48 + n)) = false ∧ (punctuation? (UInt8.ofNat (48 + n))).isNone ∧
      UInt8.ofNat (48 + n) ≠ quote := by decide
  simp only [isDigit, Bool.and_eq_true, decide_eq_true_eq, UInt8.le_iff_toNat_le] at digit
  obtain ⟨least, most⟩ : 48 ≤ byte.toNat ∧ byte.toNat ≤ 57 := digit
  have starts := all (byte.toNat - 48) (by omega)
  rwa [Nat.add_sub_cancel' least, UInt8.ofNat_toNat] at starts

theorem tokens_natural (n : Nat) {rest : Bytes} (stops : Stops rest) :
    tokens (Bytes.ofString (toString n) ++ rest) = (tokens rest).map (.scalar (integerValue false n) :: ·) := by
  have decimal := decimal_ofString n
  generalize Bytes.ofString (toString n) = digits at decimal
  cases digits with
  | nil => exact absurd rfl decimal.nonempty
  | cons first digits =>
      have isFirst := decimal.all first (List.mem_cons_self ..)
      obtain ⟨notSpace, noPunctuation, notQuote⟩ := digit_starts isFirst
      have numberBytes : ∀ byte ∈ digits, isNumberByte byte := fun byte member =>
        isNumberByte_of_isDigit (decimal.all byte (List.mem_cons_of_mem _ member))
      have ends : ∀ byte, rest.head? = some byte → ¬isNumberByte byte := fun byte isHead => (stops byte isHead).1
      rw [List.cons_append, tokens, notSpace, Option.isNone_iff_eq_none.1 noPunctuation, if_neg Bool.false_ne_true]
      simp only [if_neg notQuote, isFirst, Bool.true_or, if_true, takeWhile_of_all numberBytes ends,
        dropWhile_of_all numberBytes ends, number?_decimal decimal]
      cases tokens rest <;> rfl

theorem tokens_word {first : UInt8} {letters : Bytes} {value : Value}
    (starts : isSpace first = false ∧ (punctuation? first).isNone ∧ first ≠ quote ∧
      (isDigit first || first == 0x2D) = false)
    (lowercase : letters.all isLowercase) (means : word? (first :: letters) = some value) {rest : Bytes}
    (stops : Stops rest) : tokens (first :: letters ++ rest) = (tokens rest).map (.scalar value :: ·) := by
  obtain ⟨notSpace, noPunctuation, notQuote, noNumber⟩ := starts
  have letter : ∀ byte ∈ letters, isLowercase byte := List.all_eq_true.1 lowercase
  have ends : ∀ byte, rest.head? = some byte → ¬isLowercase byte := fun byte isHead => (stops byte isHead).2
  rw [List.cons_append, tokens, notSpace, Option.isNone_iff_eq_none.1 noPunctuation, if_neg Bool.false_ne_true]
  simp only [if_neg notQuote, noNumber, Bool.false_eq_true, if_false, takeWhile_of_all letter ends,
    dropWhile_of_all letter ends, means]
  cases tokens rest <;> rfl

theorem tokens_bool (value : Bool) {rest : Bytes} (stops : Stops rest) :
    tokens (write (.bool value) ++ rest) = (tokens rest).map (.scalar (.bool value) :: ·) := by
  cases value with
  | true =>
      have bytes : write (.bool true) = [0x74, 0x72, 0x75, 0x65] := by decide
      rw [bytes]
      exact tokens_word (by decide) rfl rfl stops
  | false =>
      have bytes : write (.bool false) = [0x66, 0x61, 0x6C, 0x73, 0x65] := by decide
      rw [bytes]
      exact tokens_word (by decide) rfl rfl stops

mutual

def valueOf : Document → Value
  | .bool value => .bool value
  | .natural n => integerValue false n
  | .text content => .text content
  | .list items => .list (valuesOf items)
  | .record fields => .map (entriesOf fields)

def valuesOf : List Document → List Value
  | [] => []
  | item :: rest => valueOf item :: valuesOf rest

def entriesOf : List (String × Document) → List (Value × Value)
  | [] => []
  | (name, value) :: rest => (.text name, valueOf value) :: entriesOf rest

end

mutual

def tokensOf : Document → List Token
  | .bool value => [.scalar (.bool value)]
  | .natural n => [.scalar (integerValue false n)]
  | .text content => [.scalar (.text content)]
  | .list items => .beginList :: (itemTokens items ++ [.endList])
  | .record fields => .beginMap :: (fieldTokens fields ++ [.endMap])

def itemTokens : List Document → List Token
  | [] => []
  | [item] => tokensOf item
  | item :: rest => tokensOf item ++ .comma :: itemTokens rest

def fieldTokens : List (String × Document) → List Token
  | [] => []
  | [(name, value)] => .scalar (.text name) :: .colon :: tokensOf value
  | (name, value) :: rest => .scalar (.text name) :: .colon :: (tokensOf value ++ .comma :: fieldTokens rest)

end

theorem stops_of_punctuation {byte : UInt8} (ends : isNumberByte byte = false ∧ isLowercase byte = false)
    (rest : Bytes) :
    Stops (byte :: rest) := by
  intro other isHead
  obtain rfl := Option.some.inj isHead
  simp [ends]

mutual

theorem tokens_write (document : Document) {rest : Bytes} (stops : Stops rest) :
    tokens (write document ++ rest) = (tokens rest).map (tokensOf document ++ ·) := by
  match document with
  | .bool value => exact tokens_bool value stops
  | .natural n => exact tokens_natural n stops
  | .text content => exact tokens_text content rest
  | .list items =>
      have ends : tokens (0x5D :: rest) = (tokens rest).map (.endList :: ·) := tokens_punctuation rfl rfl rest
      have inner := tokens_writeItems items (stops_of_punctuation (by decide) rest : Stops (0x5D :: rest))
      simp only [write, tokensOf, List.append_assoc, List.cons_append, List.nil_append]
      rw [tokens_punctuation rfl rfl, inner, ends]
      cases tokens rest <;> simp
  | .record fields =>
      have ends : tokens (0x7D :: rest) = (tokens rest).map (.endMap :: ·) := tokens_punctuation rfl rfl rest
      have inner := tokens_writeFields fields (stops_of_punctuation (by decide) rest : Stops (0x7D :: rest))
      simp only [write, tokensOf, List.append_assoc, List.cons_append, List.nil_append]
      rw [tokens_punctuation rfl rfl, inner, ends]
      cases tokens rest <;> simp

theorem tokens_writeItems (items : List Document) {rest : Bytes} (stops : Stops rest) :
    tokens (writeItems items ++ rest) = (tokens rest).map (itemTokens items ++ ·) := by
  match items with
  | [] => simp [writeItems, itemTokens]
  | [item] => exact tokens_write item stops
  | item :: second :: others =>
      have inner := tokens_writeItems (second :: others) stops
      have separated : tokens (0x2C :: (writeItems (second :: others) ++ rest)) =
          (tokens (writeItems (second :: others) ++ rest)).map (.comma :: ·) := tokens_punctuation rfl rfl _
      have first := tokens_write item
        (stops_of_punctuation (by decide) (writeItems (second :: others) ++ rest) : Stops (0x2C :: _))
      simp only [writeItems, itemTokens, List.append_assoc, List.cons_append, List.nil_append] at *
      rw [first, separated, inner]
      cases tokens rest <;> simp

theorem tokens_writeFields (fields : List (String × Document)) {rest : Bytes} (stops : Stops rest) :
    tokens (writeFields fields ++ rest) = (tokens rest).map (fieldTokens fields ++ ·) := by
  match fields with
  | [] => simp [writeFields, fieldTokens]
  | [(name, value)] =>
      have inner := tokens_write value stops
      have named : tokens (0x3A :: (write value ++ rest)) = (tokens (write value ++ rest)).map (.colon :: ·) :=
        tokens_punctuation rfl rfl _
      simp only [writeFields, fieldTokens, List.append_assoc, List.cons_append, List.nil_append]
      rw [tokens_text, named, inner]
      cases tokens rest <;> simp
  | (name, value) :: second :: others =>
      have inner := tokens_writeFields (second :: others) stops
      have separated : tokens (0x2C :: (writeFields (second :: others) ++ rest)) =
          (tokens (writeFields (second :: others) ++ rest)).map (.comma :: ·) := tokens_punctuation rfl rfl _
      have first := tokens_write value
        (stops_of_punctuation (by decide) (writeFields (second :: others) ++ rest) : Stops (0x2C :: _))
      have named (bytes : Bytes) : tokens (0x3A :: bytes) = (tokens bytes).map (.colon :: ·) :=
        tokens_punctuation rfl rfl _
      simp only [writeFields, fieldTokens, List.append_assoc, List.cons_append, List.nil_append]
      rw [tokens_text, named, first, separated, inner]
      cases tokens rest <;> simp

end

open Builder (step deliver)

def takes (builder : Builder) (tokens : List Token) : Option Builder := tokens.foldlM step builder

theorem takes_valueOrEnd (document : Document) (contexts : List Context) (rest : List Token) :
    takes ⟨.list [] :: contexts, .valueOrEnd⟩ (tokensOf document ++ rest) =
      takes ⟨.list [] :: contexts, .value⟩ (tokensOf document ++ rest) := by
  cases document <;> rfl

theorem itemTokens_cons (item second : Document) (others : List Document) :
    itemTokens (item :: second :: others) = tokensOf item ++ .comma :: itemTokens (second :: others) := rfl

mutual

theorem takes_document (document : Document) (contexts : List Context) (rest : List Token) :
    takes ⟨contexts, .value⟩ (tokensOf document ++ rest) = takes (deliver contexts (valueOf document)) rest := by
  match document with
  | .bool value => rfl
  | .natural n => rfl
  | .text content => rfl
  | .list [] => rfl
  | .list (item :: others) =>
      have inner := takes_items (item :: others) (List.cons_ne_nil _ _) [] contexts rest
      have opened : takes ⟨contexts, .value⟩ (tokensOf (.list (item :: others)) ++ rest) =
          takes ⟨.list [] :: contexts, .valueOrEnd⟩ (itemTokens (item :: others) ++ [.endList] ++ rest) := rfl
      have started : takes ⟨.list [] :: contexts, .valueOrEnd⟩ (itemTokens (item :: others) ++ .endList :: rest) =
          takes ⟨.list [] :: contexts, .value⟩ (itemTokens (item :: others) ++ .endList :: rest) := by
        cases others with
        | nil => exact takes_valueOrEnd item contexts _
        | cons second others =>
            rw [itemTokens_cons, List.append_assoc]
            exact takes_valueOrEnd item contexts _
      rw [opened, List.append_assoc]
      exact started.trans inner
  | .record [] => rfl
  | .record (field :: others) =>
      have inner := takes_fields (field :: others) (List.cons_ne_nil _ _) [] contexts rest
      have opened : takes ⟨contexts, .value⟩ (tokensOf (.record (field :: others)) ++ rest) =
          takes ⟨contexts, .keyOrEnd⟩ (fieldTokens (field :: others) ++ [.endMap] ++ rest) := rfl
      have started : takes ⟨contexts, .keyOrEnd⟩ (fieldTokens (field :: others) ++ .endMap :: rest) =
          takes ⟨contexts, .key []⟩ (fieldTokens (field :: others) ++ .endMap :: rest) := by
        cases others <;> rfl
      rw [opened, List.append_assoc]
      exact started.trans inner

theorem takes_items (items : List Document) (nonempty : items ≠ []) (done : List Value) (contexts : List Context)
    (rest : List Token) :
    takes ⟨.list done :: contexts, .value⟩ (itemTokens items ++ .endList :: rest) =
      takes (deliver contexts (.list (done.reverse ++ valuesOf items))) rest := by
  match items with
  | [] => exact absurd rfl nonempty
  | [item] =>
      have first := takes_document item (.list done :: contexts) (.endList :: rest)
      have ended : takes (deliver (.list done :: contexts) (valueOf item)) (.endList :: rest) =
          takes (deliver contexts (.list (valueOf item :: done).reverse)) rest := rfl
      rw [List.reverse_cons] at ended
      exact first.trans ended
  | item :: second :: others =>
      have inner := takes_items (second :: others) (List.cons_ne_nil _ _) (valueOf item :: done) contexts rest
      have first := takes_document item (.list done :: contexts)
        (.comma :: (itemTokens (second :: others) ++ .endList :: rest))
      have separated : takes (deliver (.list done :: contexts) (valueOf item))
          (.comma :: (itemTokens (second :: others) ++ .endList :: rest)) =
          takes ⟨.list (valueOf item :: done) :: contexts, .value⟩
            (itemTokens (second :: others) ++ .endList :: rest) := rfl
      rw [List.reverse_cons, List.append_assoc] at inner
      rw [itemTokens_cons, List.append_assoc]
      exact first.trans (separated.trans inner)

theorem takes_fields (fields : List (String × Document)) (nonempty : fields ≠ []) (done : List (Value × Value))
    (contexts : List Context) (rest : List Token) :
    takes ⟨contexts, .key done⟩ (fieldTokens fields ++ .endMap :: rest) =
      takes (deliver contexts (.map (done.reverse ++ entriesOf fields))) rest := by
  match fields with
  | [] => exact absurd rfl nonempty
  | [(name, value)] =>
      have first := takes_document value (.map done (.text name) :: contexts) (.endMap :: rest)
      have ended : takes (deliver (.map done (.text name) :: contexts) (valueOf value)) (.endMap :: rest) =
          takes (deliver contexts (.map ((.text name, valueOf value) :: done).reverse)) rest := rfl
      rw [List.reverse_cons] at ended
      exact first.trans ended
  | (name, value) :: second :: others =>
      have inner := takes_fields (second :: others) (List.cons_ne_nil _ _)
        ((.text name, valueOf value) :: done) contexts rest
      have first := takes_document value (.map done (.text name) :: contexts)
        (.comma :: (fieldTokens (second :: others) ++ .endMap :: rest))
      have separated : takes (deliver (.map done (.text name) :: contexts) (valueOf value))
          (.comma :: (fieldTokens (second :: others) ++ .endMap :: rest)) =
          takes ⟨contexts, .key ((.text name, valueOf value) :: done)⟩
            (fieldTokens (second :: others) ++ .endMap :: rest) := rfl
      have opened : takes ⟨contexts, .key done⟩ (fieldTokens ((name, value) :: second :: others) ++ .endMap :: rest) =
          takes ⟨.map done (.text name) :: contexts, .value⟩
            (tokensOf value ++ .comma :: fieldTokens (second :: others) ++ .endMap :: rest) := rfl
      rw [List.reverse_cons, List.append_assoc] at inner
      rw [opened, List.append_assoc]
      exact first.trans (separated.trans inner)

end

theorem read_write (document : Document) : read (write document) = some (valueOf document) := by
  -- Reading is split in two: the scanner finds the tokens of the document, and the builder takes them all.
  have scanned : tokens (write document) = some (tokensOf document) := by
    have all := tokens_write document (nofun : Stops [])
    have done : tokens [] = some [] := by rw [tokens]
    rwa [List.append_nil, done, Option.map_some, List.append_nil] at all
  have taken : takes ⟨[], .value⟩ (tokensOf document) = some ⟨[], .nothing (valueOf document)⟩ := by
    have all := takes_document document [] []
    rwa [List.append_nil] at all
  unfold read
  rw [scanned]
  change (takes ⟨[], .value⟩ (tokensOf document)).bind Builder.finish = _
  rw [taken]
  rfl

end SupplyGraph.Json
