import AnarchNet.Json.Value

/-!
# The JSON reader

`boost::json::read` for a string. The grammar is the one of `Json_grammer`, and the escapes of a
string are resolved by `substitute_esc_chars`. The reader looks at the front of the text only:
what follows the value is not read. A rule that does not match lets the next alternative try,
while an action that throws ends the reading.

The primitive parsers of Spirit are a parameter of the grammar. The fields of `Primitives` say
what their documentation promises on the texts that JSON allows.
-/

namespace AnarchNet.Json

open FileSystem

/-- `std::isspace` in the C locale. -/
def isSpace (byte : UInt8) : Bool := byte = 32 || (9 ≤ byte && byte ≤ 13)

/-- What `std::copy` takes from a stream through an `istream_iterator<char>`: the iterator skips
white space. -/
def copyChars (text : Bytes) : Bytes := text.filter (! isSpace ·)

/-- The byte `"`. -/
abbrev quote : UInt8 := 34

/-- The byte `\`. -/
abbrev backslash : UInt8 := 92

/-- The byte `,`. -/
abbrev comma : UInt8 := 44

/-- The byte `:`. -/
abbrev colon : UInt8 := 58

/-- A decimal digit. -/
def isDigit (byte : UInt8) : Bool := 48 ≤ byte && byte ≤ 57

/-- The bytes that can start a number for Spirit: the signs, the point and the digits. -/
def startsNumber (byte : UInt8) : Bool := byte = 43 || byte = 45 || byte = 46 || isDigit byte

/-- The text does not go on as a number does. -/
def EndsNumber (rest : Bytes) : Prop :=
  ∀ byte ∈ rest.head?, isDigit byte = false ∧ byte ≠ 46 ∧ byte ≠ 69 ∧ byte ≠ 101

/-- The number that decimal digits name. -/
def digitsValue (digits : Bytes) : Nat :=
  digits.foldl (fun number digit => number * 10 + (digit.toNat - 48)) 0

/-- The digits of an integer: no zero stands in front of another digit. -/
def WholeDigits (digits : Bytes) : Prop :=
  digits ≠ [] ∧ (∀ digit ∈ digits, isDigit digit) ∧ (digits.head? = some 48 → digits = [48])

/-- An integer literal of JSON that 64 bits can hold, signed or unsigned. -/
structure IntLiteral where
  negative : Bool
  digits : Bytes
  whole : WholeDigits digits
  fits : digitsValue digits < if negative then 2 ^ 63 + 1 else 2 ^ 64

namespace IntLiteral

/-- The text of the literal. -/
def text (literal : IntLiteral) : Bytes :=
  (if literal.negative then [45] else []) ++ literal.digits

/-- The number it names. -/
def number (literal : IntLiteral) : Int :=
  if literal.negative then -(digitsValue literal.digits : Int) else digitsValue literal.digits

/-- What the reader makes of it: signed where that fits. -/
def value (literal : IntLiteral) : Value :=
  if literal.number < 2 ^ 63 then .int literal.number else .uint literal.number.toNat

end IntLiteral

/-- The exponent of a real literal. -/
structure Exponent where
  upper : Bool
  sign : Option Bool
  digits : Bytes
  nonempty : digits ≠ []
  decimal : ∀ digit ∈ digits, isDigit digit

/-- The optional sign of an exponent. -/
def signText : Option Bool → Bytes
  | none => []
  | some true => [45]
  | some false => [43]

/-- The text of an exponent. -/
def Exponent.text (exponent : Exponent) : Bytes :=
  (if exponent.upper then 69 else 101) :: (signText exponent.sign ++ exponent.digits)

/-- A real literal of JSON: it has a fraction, an exponent or both. -/
structure RealLiteral where
  negative : Bool
  digits : Bytes
  whole : WholeDigits digits
  fraction : Bytes
  decimal : ∀ digit ∈ fraction, isDigit digit
  exponent : Option Exponent
  real : fraction ≠ [] ∨ exponent.isSome

/-- The text of a real literal. -/
def RealLiteral.text (literal : RealLiteral) : Bytes :=
  (if literal.negative then [45] else []) ++ (literal.digits ++
    ((if literal.fraction = [] then [] else 46 :: literal.fraction) ++
      (literal.exponent.elim [] Exponent.text)))

/-- The characters that may follow the backslash of an escape of JSON. -/
inductive Escape where
  | quote
  | backslash
  | slash
  | backspace
  | formFeed
  | newline
  | carriageReturn
  | tab
  deriving DecidableEq

namespace Escape

/-- The character after the backslash. -/
def letter : Escape → UInt8
  | .quote => 34
  | .backslash => 92
  | .slash => 47
  | .backspace => 98
  | .formFeed => 102
  | .newline => 110
  | .carriageReturn => 114
  | .tab => 116

/-- The character it stands for. -/
def meaning : Escape → UInt8
  | .quote => 34
  | .backslash => 92
  | .slash => 47
  | .backspace => 8
  | .formFeed => 12
  | .newline => 10
  | .carriageReturn => 13
  | .tab => 9

/-- All escapes. -/
def all : List Escape :=
  [.quote, .backslash, .slash, .backspace, .formFeed, .newline, .carriageReturn, .tab]

end Escape

/-- The letter `u` of an escape with four hexadecimal digits. -/
abbrev letterU : UInt8 := 117

/-- The primitive parsers of Spirit in the grammar. The number parsers give the text behind
their match. -/
structure Primitives where
  /-- `lex_escape_ch_p` after a backslash: how many characters belong to the escape. -/
  escaped : Bytes → Option Nat
  /-- `strict_real_p`, with the literal that it matched. -/
  strictReal : Bytes → Option (Bytes × Bytes)
  /-- `int64_p`. -/
  int64 : Bytes → Option (Int × Bytes)
  /-- `uint64_p`. -/
  uint64 : Bytes → Option (Nat × Bytes)
  escaped_letter : ∀ (escape : Escape) (rest : Bytes),
    escaped (escape.letter :: rest) = some 1
  escaped_unicode : ∀ rest : Bytes, escaped (letterU :: rest) = some 1
  strictReal_real : ∀ (literal : RealLiteral) (rest : Bytes), EndsNumber rest →
    strictReal (literal.text ++ rest) = some (literal.text, rest)
  strictReal_int : ∀ (literal : IntLiteral) (rest : Bytes), EndsNumber rest →
    strictReal (literal.text ++ rest) = none
  int64_int : ∀ (literal : IntLiteral) (rest : Bytes), EndsNumber rest →
    int64 (literal.text ++ rest) =
      if literal.number < 2 ^ 63 then some (literal.number, rest) else none
  uint64_int : ∀ (literal : IntLiteral) (rest : Bytes), EndsNumber rest →
    2 ^ 63 ≤ literal.number → uint64 (literal.text ++ rest) = some (literal.number.toNat, rest)
  strictReal_other : ∀ text : Bytes, (∀ byte ∈ text.head?, startsNumber byte = false) →
    strictReal text = none
  int64_other : ∀ text : Bytes, (∀ byte ∈ text.head?, startsNumber byte = false) →
    int64 text = none
  uint64_other : ∀ text : Bytes, (∀ byte ∈ text.head?, startsNumber byte = false) →
    uint64 text = none

/-- The outcome of a grammar rule: a match with the text behind it, no match, or an exception. -/
inductive Parse (α : Type) where
  | hit (value : α) (rest : Bytes)
  | miss
  | thrown

/-- The skipper `space_p`. -/
def skip (text : Bytes) : Bytes := text.dropWhile isSpace

/-- `hex_to_num`. -/
def hexToNum (byte : UInt8) : Nat :=
  if 48 ≤ byte ∧ byte ≤ 57 then byte.toNat - 48
  else if 97 ≤ byte ∧ byte ≤ 102 then byte.toNat - 97 + 10
  else if 65 ≤ byte ∧ byte ≤ 70 then byte.toNat - 65 + 10
  else 0

/-- The single characters of `append_esc_char_and_incr_iter`. -/
def escapeChar (letter : UInt8) : Bytes :=
  match Escape.all.find? (·.letter = letter) with
  | some escape => [escape.meaning]
  | none => []

/-- `substitute_esc_chars`: a character of a hexadecimal escape is cut to one byte, an unknown
escape is left out, and the last character never starts an escape. -/
def substituteEscChars : Bytes → Bytes
  | first :: letter :: rest =>
      if first = backslash then
        if letter = 120 then
          match rest with
          | h1 :: h2 :: more =>
              UInt8.ofNat (hexToNum h1 * 16 + hexToNum h2) :: substituteEscChars more
          | short => substituteEscChars short
        else if letter = letterU then
          match rest with
          | h1 :: h2 :: h3 :: h4 :: more =>
              UInt8.ofNat (hexToNum h1 * 4096 + hexToNum h2 * 256 + hexToNum h3 * 16 +
                hexToNum h4) :: substituteEscChars more
          | short => substituteEscChars short
        else escapeChar letter ++ substituteEscChars rest
      else first :: substituteEscChars (letter :: rest)
  | short => short

namespace Reader

variable (spirit : Primitives)

/-- The characters of a string up to the closing quote, and the text behind the quote. -/
def stringChars : Nat → Bytes → Option (Bytes × Bytes)
  | fuel + 1, byte :: rest =>
      if byte = quote then some ([], rest)
      else if byte = backslash then do
        let count ← spirit.escaped rest
        let (chars, behind) ← stringChars fuel (rest.drop count)
        some (byte :: rest.take count ++ chars, behind)
      else do
        let (chars, behind) ← stringChars fuel rest
        some (byte :: chars, behind)
  | _, _ => none

/-- `string_` with `get_str`. -/
def string (text : Bytes) : Option (Bytes × Bytes) :=
  match skip text with
  | byte :: rest =>
      if byte = quote then
        (stringChars spirit (rest.length + 1) rest).map (Prod.map substituteEscChars id)
      else none
  | [] => none

/-- `number_`. -/
def number (text : Bytes) : Option (Value × Bytes) :=
  ((spirit.strictReal (skip text)).map (Prod.map .real id)).or
    (((spirit.int64 (skip text)).map (Prod.map .int id)).or
      ((spirit.uint64 (skip text)).map (Prod.map .uint id)))

/-- The words `true`, `false` and `null`. -/
def word (text : Bytes) : Parse Value :=
  if [116, 114, 117, 101] <+: skip text then .hit (.bool true) ((skip text).drop 4)
  else if [102, 97, 108, 115, 101] <+: skip text then .hit (.bool false) ((skip text).drop 5)
  else if [110, 117, 108, 108] <+: skip text then .hit .null ((skip text).drop 4)
  else .miss

/-- A character of the grammar. -/
def char (byte : UInt8) (text : Bytes) : Option Bytes :=
  match skip text with
  | first :: rest => if first = byte then some rest else none
  | [] => none

/-- `item >> *( ',' >> item )`, for at most `fuel` further items. -/
def separated {α : Type} (item : Bytes → Parse α) : Nat → Bytes → Parse (List α)
  | 0, _ => .miss
  | fuel + 1, text =>
      match item text with
      | .miss => .miss
      | .thrown => .thrown
      | .hit value rest =>
          match char comma rest with
          | none => .hit [value] rest
          | some behind =>
              match separated item fuel behind with
              | .miss => .hit [value] rest
              | .thrown => .thrown
              | .hit values last => .hit (value :: values) last

/-- The rest of `object_` and of `array_` behind the opening bracket: optional items and the
closing bracket, without which an action throws. -/
def compound {α : Type} (item : Bytes → Parse α) (close : UInt8) (build : List α → Value)
    (text : Bytes) : Parse Value :=
  let finish (values : List α) (rest : Bytes) : Parse Value :=
    match char close rest with
    | some behind => .hit (build values) behind
    | none => .thrown
  match separated item (text.length + 1) text with
  | .thrown => .thrown
  | .miss => finish [] text
  | .hit values rest => finish values rest

/-- `pair_`: behind a name a colon and a value have to follow. -/
def pair (value : Bytes → Parse Value) (text : Bytes) : Parse (Bytes × Value) :=
  match string spirit text with
  | none => .miss
  | some (name, rest) =>
      match char colon rest with
      | none => .thrown
      | some behind =>
          match value behind with
          | .hit field last => .hit (name, field) last
          | _ => .thrown

/-- `value_`, for values nested at most `fuel` deep. -/
def value : Nat → Bytes → Parse Value
  | 0, _ => .thrown
  | fuel + 1, text =>
      match string spirit text with
      | some (chars, rest) => .hit (.str chars) rest
      | none =>
          match number spirit text with
          | some (found, rest) => .hit found rest
          | none =>
              match char 123 text with
              | some inner => compound (pair spirit (value fuel)) 125 .obj inner
              | none =>
                  match char 91 text with
                  | some inner => compound (value fuel) 93 .array inner
                  | none => word text

/-- `read`: the value at the front of a text. A value nested deeper than the text is long cannot
be met. -/
def read (text : Bytes) : Option Value :=
  match value spirit (text.length + 1) text with
  | .hit found _ => some found
  | _ => none

end Reader

end AnarchNet.Json
