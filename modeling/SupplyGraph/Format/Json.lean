import SupplyGraph.Format.Value

/-!
JSON text. Reading cuts the bytes into tokens and builds the value with a stack of open brackets, so nesting has
no limit. A string whose content is not Unicode text is read as bytes. Writing puts no blanks and escapes what
has to be escaped.
-/

namespace SupplyGraph.Json

/-! ## Tokens -/

inductive Token
  | beginList | endList | beginMap | endMap | comma | colon
  | scalar (value : Value)

def quote : UInt8 := 0x22

def backslash : UInt8 := 0x5C

def isSpace (byte : UInt8) : Bool := byte == 0x20 || byte == 0x09 || byte == 0x0A || byte == 0x0D

def isDigit (byte : UInt8) : Bool := 0x30 ≤ byte && byte ≤ 0x39

def isLowercase (byte : UInt8) : Bool := 0x61 ≤ byte && byte ≤ 0x7A

def isNumberByte (byte : UInt8) : Bool :=
  isDigit byte || byte == 0x2B || byte == 0x2D || byte == 0x2E || byte == 0x45 || byte == 0x65

def hexValue? (byte : UInt8) : Option Nat :=
  if isDigit byte then some (byte.toNat - 0x30)
  else if 0x41 ≤ byte && byte ≤ 0x46 then some (byte.toNat - 0x41 + 10)
  else if 0x61 ≤ byte && byte ≤ 0x66 then some (byte.toNat - 0x61 + 10)
  else none

def readUnit : Bytes → Option (Nat × Bytes)
  | a :: b :: c :: d :: rest => do
    let a ← hexValue? a
    let b ← hexValue? b
    let c ← hexValue? c
    let d ← hexValue? d
    some (((a * 16 + b) * 16 + c) * 16 + d, rest)
  | _ => none

/-- The bytes of a code point in UTF-8, also for the code points that are halves of a pair. -/
def codePointBytes (n : Nat) : Bytes :=
  if n < 0x80 then [UInt8.ofNat n]
  else if n < 0x800 then [UInt8.ofNat (0xC0 + n / 0x40), UInt8.ofNat (0x80 + n % 0x40)]
  else if n < 0x10000 then
    [UInt8.ofNat (0xE0 + n / 0x1000), UInt8.ofNat (0x80 + n / 0x40 % 0x40), UInt8.ofNat (0x80 + n % 0x40)]
  else
    [UInt8.ofNat (0xF0 + n / 0x40000), UInt8.ofNat (0x80 + n / 0x1000 % 0x40), UInt8.ofNat (0x80 + n / 0x40 % 0x40),
      UInt8.ofNat (0x80 + n % 0x40)]

def isHighHalf (unit : Nat) : Bool := 0xD800 ≤ unit && unit < 0xDC00

def isLowHalf (unit : Nat) : Bool := 0xDC00 ≤ unit && unit < 0xE000

def readSecondUnit (bytes : Bytes) : Option (Nat × Bytes) :=
  match bytes with
  | first :: letter :: rest => if first = backslash ∧ letter = 0x75 then readUnit rest else none
  | _ => none

def readPair (high : Nat) (bytes : Bytes) : Option (Nat × Bytes) :=
  match readSecondUnit bytes with
  | some (low, rest) =>
    if isHighHalf high ∧ isLowHalf low then some (0x10000 + (high - 0xD800) * 0x400 + (low - 0xDC00), rest) else none
  | none => none

def readEscapedUnit (bytes : Bytes) : Option (Bytes × Bytes) :=
  match readUnit bytes with
  | none => none
  | some (unit, rest) =>
    match readPair unit rest with
    | some (codePoint, after) => some (codePointBytes codePoint, after)
    | none => some (codePointBytes unit, rest)

def unescape? (letter : UInt8) : Option UInt8 :=
  [(quote, quote), (backslash, backslash), (0x2F, 0x2F), (0x62, 0x08), (0x66, 0x0C), (0x6E, 0x0A), (0x72, 0x0D),
    (0x74, 0x09)].lookup letter

def readEscape : Bytes → Option (Bytes × Bytes)
  | [] => none
  | letter :: rest =>
    if letter = 0x75 then readEscapedUnit rest
    else (unescape? letter).map fun byte => ([byte], rest)

theorem length_of_readUnit {bytes rest : Bytes} {unit : Nat} (read : readUnit bytes = some (unit, rest)) :
    rest.length < bytes.length := by
  unfold readUnit at read
  split at read
  · simp only [Option.bind_eq_bind, Option.bind_eq_some_iff, Option.some.injEq, Prod.mk.injEq] at read
    obtain ⟨_, _, _, _, _, _, _, _, _, rfl⟩ := read
    simp only [List.length_cons]
    omega
  · cases read

theorem length_of_readPair {high codePoint : Nat} {bytes rest : Bytes}
    (read : readPair high bytes = some (codePoint, rest)) : rest.length < bytes.length := by
  unfold readPair readSecondUnit at read
  split at read
  · rename_i low after found
    split at found
    · split at found
      · have shorter := length_of_readUnit found
        split at read
        · simp only [Option.some.injEq, Prod.mk.injEq] at read
          simp only [List.length_cons, ← read.2]
          omega
        · cases read
      · cases found
    · cases found
  · cases read

theorem length_of_readEscapedUnit {bytes rest content : Bytes} (read : readEscapedUnit bytes = some (content, rest)) :
    rest.length < bytes.length := by
  unfold readEscapedUnit at read
  split at read
  · cases read
  · rename_i unit following first
    have shorter := length_of_readUnit first
    split at read
    · rename_i codePoint after second
      have further := length_of_readPair second
      simp only [Option.some.injEq, Prod.mk.injEq] at read
      rw [← read.2]
      omega
    · simp only [Option.some.injEq, Prod.mk.injEq] at read
      rw [← read.2]
      exact shorter

theorem length_of_readEscape {bytes rest content : Bytes} (read : readEscape bytes = some (content, rest)) :
    rest.length < bytes.length := by
  unfold readEscape at read
  split at read
  · cases read
  · split at read
    · exact Nat.lt_succ_of_lt (length_of_readEscapedUnit read)
    · simp only [Option.map_eq_some_iff, Prod.mk.injEq] at read
      obtain ⟨_, _, _, rfl⟩ := read
      simp

def readString (bytes : Bytes) : Option (Bytes × Bytes) :=
  match bytes with
  | [] => none
  | byte :: rest =>
    if byte = quote then some ([], rest)
    else if byte = backslash then
      match _found : readEscape rest with
      | none => none
      | some (content, after) => (readString after).map fun (others, rest) => (content ++ others, rest)
    else if byte < 0x20 then none
    else (readString rest).map fun (others, rest) => (byte :: others, rest)
termination_by bytes.length
decreasing_by
  · exact Nat.lt_succ_of_lt (length_of_readEscape _found)
  · simp

theorem length_of_readString {bytes rest content : Bytes} (read : readString bytes = some (content, rest)) :
    rest.length < bytes.length := by
  fun_induction readString bytes generalizing content rest with
  | case1 => cases read
  | case2 after =>
    simp only [Option.some.injEq, Prod.mk.injEq] at read
    simp [read.2]
  | case3 => cases read
  | case4 following escape after found _ ih =>
    simp only [Option.map_eq_some_iff, Prod.mk.injEq] at read
    obtain ⟨⟨others, last⟩, inner, _, rfl⟩ := read
    have shorter := length_of_readEscape found
    have further := ih inner
    simp only [List.length_cons]
    omega
  | case5 => cases read
  | case6 byte following _ _ _ ih =>
    simp only [Option.map_eq_some_iff, Prod.mk.injEq] at read
    obtain ⟨⟨others, last⟩, inner, _, rfl⟩ := read
    have further := ih inner
    simp only [List.length_cons]
    omega

/-! ## Numbers -/

def decimalValue (digits : Bytes) : Nat := digits.foldl (fun n byte => n * 10 + (byte.toNat - 0x30)) 0

def isFraction : Bytes → Bool
  | point :: digits => point == 0x2E && !digits.isEmpty && digits.all isDigit
  | [] => true

def isExponent : Bytes → Bool
  | letter :: rest =>
    let digits := match rest with
      | sign :: digits => if sign == 0x2B || sign == 0x2D then digits else rest
      | [] => []
    (letter == 0x65 || letter == 0x45) && !digits.isEmpty && digits.all isDigit
  | [] => true

def negativeLimit : Nat := 0x8000000000000000

/-- A number as its digits say; integers beyond 64 bits and a negative zero are no integers. -/
def integerValue (negative : Bool) (n : Nat) : Value :=
  if negative then if n = 0 ∨ negativeLimit < n then .float else .signed (-n)
  else if n < UInt64.size then .unsigned 8 n else .float

def number? (run : Bytes) : Option Value :=
  let negative := run.head? == some 0x2D
  let body := if negative then run.tail else run
  let whole := body.takeWhile isDigit
  let rest := body.dropWhile isDigit
  let fraction := rest.takeWhile fun byte => byte != 0x65 && byte != 0x45
  let exponent := rest.dropWhile fun byte => byte != 0x65 && byte != 0x45
  if whole.isEmpty || (whole.head? == some 0x30 && whole.length != 1) then none
  else if isFraction fraction && isExponent exponent then
    some (if rest.isEmpty then integerValue negative (decimalValue whole) else .float)
  else none

def word? (word : Bytes) : Option Value :=
  if word = Bytes.ofString "null" then some .null
  else if word = Bytes.ofString "true" then some (.bool true)
  else if word = Bytes.ofString "false" then some (.bool false)
  else none

def punctuation? (byte : UInt8) : Option Token :=
  if byte = 0x5B then some .beginList
  else if byte = 0x5D then some .endList
  else if byte = 0x7B then some .beginMap
  else if byte = 0x7D then some .endMap
  else if byte = 0x2C then some .comma
  else if byte = 0x3A then some .colon
  else none

def tokens (bytes : Bytes) : Option (List Token) :=
  match bytes with
  | [] => some []
  | byte :: rest =>
    if isSpace byte then tokens rest
    else match punctuation? byte with
    | some token => do
      let others ← tokens rest
      some (token :: others)
    | none =>
      if byte = quote then
        match _found : readString rest with
        | none => none
        | some (content, after) => do
          let others ← tokens after
          some (.scalar (.ofContent content) :: others)
      else if isDigit byte || byte == 0x2D then do
        let value ← number? (byte :: rest.takeWhile isNumberByte)
        let others ← tokens (rest.dropWhile isNumberByte)
        some (.scalar value :: others)
      else do
        let value ← word? (byte :: rest.takeWhile isLowercase)
        let others ← tokens (rest.dropWhile isLowercase)
        some (.scalar value :: others)
termination_by bytes.length
decreasing_by
  · simp
  · simp
  · exact Nat.lt_succ_of_lt (length_of_readString _found)
  · exact Nat.lt_succ_of_le (List.dropWhile_sublist _).length_le
  · exact Nat.lt_succ_of_le (List.dropWhile_sublist _).length_le

/-! ## Values -/

inductive Context
  | list (items : List Value)
  | map (entries : List (Value × Value)) (key : Value)

inductive Awaiting
  | value
  | valueOrEnd
  | key (entries : List (Value × Value))
  | keyOrEnd
  | colon (entries : List (Value × Value)) (key : Value)
  | separator
  | nothing (value : Value)

structure Builder where
  contexts : List Context
  awaiting : Awaiting

namespace Builder

def deliver (contexts : List Context) (value : Value) : Builder :=
  match contexts with
  | [] => ⟨[], .nothing value⟩
  | .list items :: outer => ⟨.list (value :: items) :: outer, .separator⟩
  | .map entries key :: outer => ⟨.map ((key, value) :: entries) key :: outer, .separator⟩

def beginValue (contexts : List Context) : Token → Option Builder
  | .scalar value => some (deliver contexts value)
  | .beginList => some ⟨.list [] :: contexts, .valueOrEnd⟩
  | .beginMap => some ⟨contexts, .keyOrEnd⟩
  | _ => none

def beginKey (contexts : List Context) (entries : List (Value × Value)) : Token → Option Builder
  | .scalar (.text content) => some ⟨contexts, .colon entries (.text content)⟩
  | .scalar (.binary bytes) => some ⟨contexts, .colon entries (.binary bytes)⟩
  | _ => none

def step (builder : Builder) (token : Token) : Option Builder :=
  match builder.awaiting with
  | .value => beginValue builder.contexts token
  | .valueOrEnd =>
    match builder.contexts, token with
    | .list _ :: outer, .endList => some (deliver outer (.list []))
    | contexts, token => beginValue contexts token
  | .key entries => beginKey builder.contexts entries token
  | .keyOrEnd =>
    match token with
    | .endMap => some (deliver builder.contexts (.map []))
    | token => beginKey builder.contexts [] token
  | .colon entries key =>
    match token with
    | .colon => some ⟨.map entries key :: builder.contexts, .value⟩
    | _ => none
  | .separator =>
    match builder.contexts, token with
    | .list items :: outer, .endList => some (deliver outer (.list items.reverse))
    | .list _ :: _, .comma => some ⟨builder.contexts, .value⟩
    | .map entries _ :: outer, .endMap => some (deliver outer (.map entries.reverse))
    | .map entries _ :: outer, .comma => some ⟨outer, .key entries⟩
    | _, _ => none
  | .nothing _ => none

def finish (builder : Builder) : Option Value :=
  match builder.awaiting with
  | .nothing value => some value
  | _ => none

end Builder

def read (bytes : Bytes) : Option Value := do
  let builder ← (← tokens bytes).foldlM Builder.step ⟨[], .value⟩
  builder.finish

/-! ## Writing -/

def hexDigit (n : Nat) : UInt8 := UInt8.ofNat (if n < 10 then 0x30 + n else 0x61 + (n - 10))

def escapeByte (byte : UInt8) : Bytes :=
  if byte = quote then [backslash, quote]
  else if byte = backslash then [backslash, backslash]
  else if byte = 0x08 then [backslash, 0x62]
  else if byte = 0x09 then [backslash, 0x74]
  else if byte = 0x0A then [backslash, 0x6E]
  else if byte = 0x0C then [backslash, 0x66]
  else if byte = 0x0D then [backslash, 0x72]
  else if byte < 0x20 then
    [backslash, 0x75, 0x30, 0x30, hexDigit (byte.toNat / 16), hexDigit (byte.toNat % 16)]
  else [byte]

def writeText (text : String) : Bytes := [quote] ++ (Bytes.ofString text).flatMap escapeByte ++ [quote]

mutual

def write : Document → Bytes
  | .bool true => Bytes.ofString "true"
  | .bool false => Bytes.ofString "false"
  | .natural n => Bytes.ofString (toString n)
  | .text content => writeText content
  | .list items => [0x5B] ++ writeItems items ++ [0x5D]
  | .record fields => [0x7B] ++ writeFields fields ++ [0x7D]

def writeItems : List Document → Bytes
  | [] => []
  | [item] => write item
  | item :: rest => write item ++ [0x2C] ++ writeItems rest

def writeFields : List (String × Document) → Bytes
  | [] => []
  | [(name, value)] => writeText name ++ [0x3A] ++ write value
  | (name, value) :: rest => writeText name ++ [0x3A] ++ write value ++ [0x2C] ++ writeFields rest

end

end SupplyGraph.Json
