import AnarchNet.Json.Reader

/-!
# JSON documents

A document is a JSON text with its structure: every literal, and the white space that JSON allows
between the tokens. `Doc.render` is its text and `Doc.value` the value that the text names.
The reader finds that value in the text, `read_render`. Copying a text without its white space
gives the text of the document `Doc.strip`, in which the spaces of the string literals are missing
too.
-/

namespace AnarchNet.Json

open FileSystem

/-- White space that JSON allows between tokens. -/
structure Spaces where
  bytes : Bytes
  blank : ∀ byte ∈ bytes, byte = 32 ∨ byte = 9 ∨ byte = 10 ∨ byte = 13

/-- No white space. -/
def Spaces.none : Spaces := ⟨[], by simp⟩

/-- A hexadecimal digit. -/
def isHexDigit (byte : UInt8) : Bool :=
  isDigit byte || (97 ≤ byte && byte ≤ 102) || (65 ≤ byte && byte ≤ 70)

/-- A character of a string literal: a byte for itself, an escape, or an escape with four
hexadecimal digits. -/
inductive LiteralChar where
  | plain (byte : UInt8) (high : 32 ≤ byte) (noQuote : byte ≠ quote)
      (noBackslash : byte ≠ backslash)
  | escape (mark : Escape)
  | unicode (h1 h2 h3 h4 : UInt8)
      (hex : isHexDigit h1 ∧ isHexDigit h2 ∧ isHexDigit h3 ∧ isHexDigit h4)

namespace LiteralChar

/-- The text of a character. -/
def text : LiteralChar → Bytes
  | plain byte _ _ _ => [byte]
  | escape mark => [backslash, mark.letter]
  | unicode h1 h2 h3 h4 _ => [backslash, letterU, h1, h2, h3, h4]

/-- The byte that the reader makes of a character. -/
def byte : LiteralChar → UInt8
  | plain byte _ _ _ => byte
  | escape mark => mark.meaning
  | unicode h1 h2 h3 h4 _ =>
      UInt8.ofNat (hexToNum h1 * 4096 + hexToNum h2 * 256 + hexToNum h3 * 16 + hexToNum h4)

/-- The character is an unescaped space. -/
def isBlank : LiteralChar → Bool
  | plain byte _ _ _ => byte = 32
  | _ => false

end LiteralChar

/-- A string literal. -/
abbrev Literal := List LiteralChar

namespace Literal

/-- The characters between the quotes. -/
def chars (literal : Literal) : Bytes := literal.flatMap LiteralChar.text

/-- The text of a literal. -/
def text (literal : Literal) : Bytes := quote :: (literal.chars ++ [quote])

/-- The string that a literal names. -/
def value (literal : Literal) : Bytes := literal.map LiteralChar.byte

/-- The literal without its unescaped spaces. -/
def strip (literal : Literal) : Literal := literal.filter (! ·.isBlank)

/-- The literal has no unescaped space. -/
def NoBlank (literal : Literal) : Prop := ∀ char ∈ literal, char.isBlank = false

end Literal

mutual

/-- A JSON text without white space around it. -/
inductive Doc where
  | str (literal : Literal)
  | int (literal : IntLiteral)
  | real (literal : RealLiteral)
  | bool (flag : Bool)
  | null
  | emptyArray (inner : Spaces)
  | array (items : Items)
  | emptyObj (inner : Spaces)
  | obj (members : Members)

/-- The items of an array with the white space around each. -/
inductive Items where
  | last (before : Spaces) (doc : Doc) (after : Spaces)
  | more (before : Spaces) (doc : Doc) (after : Spaces) (items : Items)

/-- The members of an object with the white space around each token. -/
inductive Members where
  | last (before : Spaces) (name : Literal) (middle inner : Spaces) (doc : Doc) (after : Spaces)
  | more (before : Spaces) (name : Literal) (middle inner : Spaces) (doc : Doc) (after : Spaces)
      (members : Members)

end

/-- One member of an object up to the next comma or the closing bracket. -/
def memberText (before : Spaces) (name : Literal) (middle inner : Spaces) (doc : Bytes)
    (after : Spaces) : Bytes :=
  before.bytes ++ (name.text ++ (middle.bytes ++ colon :: (inner.bytes ++ (doc ++ after.bytes))))

mutual

/-- The text of a document. -/
def Doc.render : Doc → Bytes
  | .str literal => literal.text
  | .int literal => literal.text
  | .real literal => literal.text
  | .bool true => [116, 114, 117, 101]
  | .bool false => [102, 97, 108, 115, 101]
  | .null => [110, 117, 108, 108]
  | .emptyArray inner => 91 :: (inner.bytes ++ [93])
  | .array items => 91 :: (items.render ++ [93])
  | .emptyObj inner => 123 :: (inner.bytes ++ [125])
  | .obj members => 123 :: (members.render ++ [125])

/-- The text of the items of an array. -/
def Items.render : Items → Bytes
  | .last before doc after => before.bytes ++ (doc.render ++ after.bytes)
  | .more before doc after items =>
      before.bytes ++ (doc.render ++ (after.bytes ++ comma :: items.render))

/-- The text of the members of an object. -/
def Members.render : Members → Bytes
  | .last before name middle inner doc after =>
      memberText before name middle inner doc.render after
  | .more before name middle inner doc after members =>
      memberText before name middle inner doc.render after ++ comma :: members.render

end

mutual

/-- The value that a document names. -/
def Doc.value : Doc → Value
  | .str literal => .str literal.value
  | .int literal => literal.value
  | .real literal => .real literal.text
  | .bool flag => .bool flag
  | .null => .null
  | .emptyArray _ => .array []
  | .array items => .array items.values
  | .emptyObj _ => .obj []
  | .obj members => .obj members.fields

/-- The values of the items of an array. -/
def Items.values : Items → List Value
  | .last _ doc _ => [doc.value]
  | .more _ doc _ items => doc.value :: items.values

/-- The fields that the members of an object name. -/
def Members.fields : Members → List (Bytes × Value)
  | .last _ name _ _ doc _ => [(name.value, doc.value)]
  | .more _ name _ _ doc _ members => (name.value, doc.value) :: members.fields

end

mutual

/-- The document without its white space, also without that in string literals. -/
def Doc.strip : Doc → Doc
  | .str literal => .str literal.strip
  | .int literal => .int literal
  | .real literal => .real literal
  | .bool flag => .bool flag
  | .null => .null
  | .emptyArray _ => .emptyArray .none
  | .array items => .array items.strip
  | .emptyObj _ => .emptyObj .none
  | .obj members => .obj members.strip

/-- The items without their white space. -/
def Items.strip : Items → Items
  | .last _ doc _ => .last .none doc.strip .none
  | .more _ doc _ items => .more .none doc.strip .none items.strip

/-- The members without their white space. -/
def Members.strip : Members → Members
  | .last _ name _ _ doc _ => .last .none name.strip .none .none doc.strip .none
  | .more _ name _ _ doc _ members =>
      .more .none name.strip .none .none doc.strip .none members.strip

end

mutual

/-- No string literal of the document, name or value, has an unescaped space. -/
def Doc.NoBlank : Doc → Prop
  | .str literal => literal.NoBlank
  | .array items => items.NoBlank
  | .obj members => members.NoBlank
  | _ => True

/-- No string literal in the items has an unescaped space. -/
def Items.NoBlank : Items → Prop
  | .last _ doc _ => doc.NoBlank
  | .more _ doc _ items => doc.NoBlank ∧ items.NoBlank

/-- No string literal in the members has an unescaped space. -/
def Members.NoBlank : Members → Prop
  | .last _ name _ _ doc _ => name.NoBlank ∧ doc.NoBlank
  | .more _ name _ _ doc _ members => name.NoBlank ∧ doc.NoBlank ∧ members.NoBlank

end

/-! ## Tokens -/

/-- White space of JSON is white space for the reader. -/
theorem Spaces.isSpace (spaces : Spaces) : ∀ byte ∈ spaces.bytes, isSpace byte = true := by
  intro byte hbyte
  rcases spaces.blank byte hbyte with rfl | rfl | rfl | rfl <;> rfl

/-- The skipper passes over the white space of a document. -/
@[simp] theorem skip_spaces (spaces : Spaces) (text : Bytes) :
    skip (spaces.bytes ++ text) = skip text := by
  rw [skip, List.dropWhile_append_of_pos (fun byte hbyte => spaces.isSpace byte hbyte), skip]

/-- The skipper stops at a character that is not white space. -/
theorem skip_cons {byte : UInt8} (hbyte : isSpace byte = false) (text : Bytes) :
    skip (byte :: text) = byte :: text :=
  List.dropWhile_cons_of_neg (by simp [hbyte])

namespace Reader

variable (spirit : Primitives) (spaces : Spaces)

@[simp] theorem string_spaces (text : Bytes) :
    string spirit (spaces.bytes ++ text) = string spirit text := by
  rw [string, skip_spaces, ← string]

@[simp] theorem number_spaces (text : Bytes) :
    number spirit (spaces.bytes ++ text) = number spirit text := by
  rw [number, skip_spaces, ← number]

@[simp] theorem word_spaces (text : Bytes) : word (spaces.bytes ++ text) = word text := by
  rw [word, skip_spaces, ← word]

@[simp] theorem char_spaces (byte : UInt8) (text : Bytes) :
    char byte (spaces.bytes ++ text) = char byte text := by
  rw [char, skip_spaces, ← char]

/-- A value may be preceded by white space. -/
@[simp] theorem value_spaces (fuel : Nat) (text : Bytes) :
    value spirit fuel (spaces.bytes ++ text) = value spirit fuel text := by
  cases fuel with
  | zero => rfl
  | succ fuel => simp only [value, string_spaces, number_spaces, word_spaces, char_spaces]

/-- A character of the grammar in its place. -/
theorem char_cons {byte : UInt8} (hbyte : isSpace byte = false) (text : Bytes) :
    char byte (byte :: text) = some text := by
  rw [char, skip_cons hbyte]
  exact if_pos rfl

/-- Another character than the one of the grammar. -/
theorem char_cons_of_ne {byte other : UInt8} (hother : isSpace other = false) (hne : other ≠ byte)
    (text : Bytes) : char byte (other :: text) = none := by
  rw [char, skip_cons hother]
  exact if_neg hne

/-- Only a quote starts a string. -/
theorem string_cons_of_ne {byte : UInt8} (hbyte : isSpace byte = false) (hne : byte ≠ quote)
    (text : Bytes) : string spirit (byte :: text) = none := by
  rw [string, skip_cons hbyte]
  exact if_neg hne

/-- Only a sign, a point or a digit starts a number. -/
theorem number_cons_of_not {byte : UInt8} (hbyte : isSpace byte = false)
    (hnot : startsNumber byte = false) (text : Bytes) :
    number spirit (byte :: text) = none := by
  have hhead : ∀ first ∈ (byte :: text).head?, startsNumber first = false := by
    intro first hfirst
    rw [List.head?_cons, Option.mem_some_iff] at hfirst
    rw [← hfirst, hnot]
  rw [number, skip_cons hbyte, spirit.strictReal_other _ hhead, spirit.int64_other _ hhead,
    spirit.uint64_other _ hhead]
  rfl

/-- A character that stands for itself is passed over. -/
theorem stringChars_plain {byte : UInt8} (hquote : byte ≠ quote) (hback : byte ≠ backslash)
    {fuel : Nat} {text chars behind : Bytes}
    (h : stringChars spirit fuel text = some (chars, behind)) :
    stringChars spirit (fuel + 1) (byte :: text) = some (byte :: chars, behind) := by
  simp only [stringChars, if_neg hquote, if_neg hback, h]
  rfl

/-- An escape of one letter is passed over. -/
theorem stringChars_escape {letter : UInt8} {fuel : Nat} {text chars behind : Bytes}
    (hletter : spirit.escaped (letter :: text) = some 1)
    (h : stringChars spirit fuel text = some (chars, behind)) :
    stringChars spirit (fuel + 1) (backslash :: letter :: text) =
      some (backslash :: letter :: chars, behind) := by
  have hne : backslash ≠ quote := by decide
  simp only [stringChars, if_neg hne, hletter]
  simp [h]

end Reader

/-- A hexadecimal digit stands for itself in a string. -/
theorem ne_of_isHexDigit {byte : UInt8} (h : isHexDigit byte = true) :
    byte ≠ quote ∧ byte ≠ backslash := by
  constructor <;> rintro rfl <;> exact absurd h (by decide)

/-- The reader finds the end of a literal. -/
theorem Literal.stringChars_chars (spirit : Primitives) (literal : Literal) (rest : Bytes)
    {fuel : Nat} (hfuel : literal.chars.length < fuel) :
    Reader.stringChars spirit fuel (literal.chars ++ quote :: rest) =
      some (literal.chars, rest) := by
  induction literal generalizing fuel with
  | nil =>
      obtain ⟨fuel, rfl⟩ := Nat.exists_eq_add_one_of_ne_zero (Nat.ne_zero_of_lt hfuel)
      exact if_pos rfl
  | cons char literal ih =>
      have hchars : Literal.chars (char :: literal) = char.text ++ Literal.chars literal := rfl
      rw [hchars, List.length_append] at hfuel
      rw [hchars, List.append_assoc]
      cases char with
      | plain byte high hquote hback =>
          obtain ⟨fuel, rfl⟩ := Nat.exists_eq_add_one_of_ne_zero (Nat.ne_zero_of_lt hfuel)
          refine Reader.stringChars_plain spirit hquote hback (ih ?_)
          simpa [LiteralChar.text, Nat.add_comm 1] using hfuel
      | escape mark =>
          obtain ⟨fuel, rfl⟩ := Nat.exists_eq_add_one_of_ne_zero (Nat.ne_zero_of_lt hfuel)
          refine Reader.stringChars_escape spirit (spirit.escaped_letter mark _) (ih ?_)
          simp only [LiteralChar.text, List.length_cons, List.length_nil] at hfuel
          omega
      | unicode h1 h2 h3 h4 hex =>
          simp only [LiteralChar.text, List.length_cons, List.length_nil] at hfuel
          obtain ⟨fuel, rfl⟩ : ∃ less, fuel = less + 1 + 1 + 1 + 1 + 1 :=
            ⟨fuel - 5, by omega⟩
          obtain ⟨x1, x2, x3, x4⟩ := hex
          have y1 := ne_of_isHexDigit x1
          have y2 := ne_of_isHexDigit x2
          have y3 := ne_of_isHexDigit x3
          have y4 := ne_of_isHexDigit x4
          refine Reader.stringChars_escape spirit (spirit.escaped_unicode _) ?_
          refine Reader.stringChars_plain spirit y1.1 y1.2 ?_
          refine Reader.stringChars_plain spirit y2.1 y2.2 ?_
          refine Reader.stringChars_plain spirit y3.1 y3.2 ?_
          refine Reader.stringChars_plain spirit y4.1 y4.2 (ih ?_)
          omega

/-- A character that starts no escape is kept. -/
theorem substituteEscChars_plain {byte : UInt8} (hbyte : byte ≠ backslash) (text : Bytes) :
    substituteEscChars (byte :: text) = byte :: substituteEscChars text := by
  cases text with
  | nil => rfl
  | cons letter rest =>
      rw [substituteEscChars.eq_def]
      exact if_neg hbyte

/-- An escape of JSON gives the character it stands for. -/
theorem substituteEscChars_escape (mark : Escape) (text : Bytes) :
    substituteEscChars (backslash :: mark.letter :: text) =
      mark.meaning :: substituteEscChars text := by
  have hx : mark.letter ≠ 120 := by cases mark <;> decide
  have hu : mark.letter ≠ letterU := by cases mark <;> decide
  have hchar : escapeChar mark.letter = [mark.meaning] := by cases mark <;> rfl
  rw [substituteEscChars.eq_def]
  simp only [if_true, if_neg hx, if_neg hu, hchar, List.singleton_append]

/-- The reader resolves the escapes of a literal. -/
theorem Literal.substituteEscChars_chars (literal : Literal) :
    substituteEscChars literal.chars = literal.value := by
  induction literal with
  | nil => rfl
  | cons char literal ih =>
      have hchars : Literal.chars (char :: literal) = char.text ++ Literal.chars literal := rfl
      have hvalue : Literal.value (char :: literal) = char.byte :: Literal.value literal := rfl
      rw [hchars, hvalue, ← ih]
      cases char with
      | plain byte high hquote hback => exact substituteEscChars_plain hback _
      | escape mark => exact substituteEscChars_escape mark _
      | unicode h1 h2 h3 h4 hex => rfl

/-- The reader finds the string that a literal names. -/
theorem Literal.string_text (spirit : Primitives) (literal : Literal) (rest : Bytes) :
    Reader.string spirit (literal.text ++ rest) = some (literal.value, rest) := by
  have hskip : skip (literal.text ++ rest) = quote :: (literal.chars ++ quote :: rest) := by
    simp [Literal.text, skip_cons (show isSpace quote = false by decide)]
  rw [Reader.string, hskip]
  simp only [if_true]
  rw [literal.stringChars_chars spirit rest (by
    rw [List.length_append, List.length_cons]
    omega), Option.map_some, Prod.map,
    literal.substituteEscChars_chars]
  rfl

/-- A number starts with a sign or a digit. -/
def StartsAsNumber (text : Bytes) : Prop :=
  ∃ byte rest, text = byte :: rest ∧ (byte = 45 ∨ isDigit byte = true)

/-- White space and quotes are no digits. -/
theorem ne_of_isDigit {byte : UInt8} (h : isDigit byte = true) :
    isSpace byte = false ∧ byte ≠ quote := by
  simp only [isDigit, Bool.and_eq_true, decide_eq_true_eq, UInt8.le_iff_toNat_le] at h
  obtain ⟨hlow, hhigh⟩ := h
  have hlow : 48 ≤ byte.toNat := hlow
  constructor
  · simp only [isSpace, Bool.or_eq_false_iff, decide_eq_false_iff_not, Bool.and_eq_false_iff,
      UInt8.le_iff_toNat_le, ← UInt8.toNat_inj]
    exact ⟨fun heq => absurd (heq ▸ hlow) (by decide),
      .inr (Nat.not_le.mpr (lt_of_lt_of_le (by decide) hlow))⟩
  · rintro rfl
    exact absurd hlow (by decide)

/-- A number is neither white space nor a string. -/
theorem StartsAsNumber.head {text : Bytes} (h : StartsAsNumber text) (rest : Bytes)
    (spirit : Primitives) :
    skip (text ++ rest) = text ++ rest ∧ Reader.string spirit (text ++ rest) = none := by
  obtain ⟨byte, tail, rfl, hbyte⟩ := h
  have hne : isSpace byte = false ∧ byte ≠ quote := by
    rcases hbyte with rfl | hbyte
    · decide
    · exact ne_of_isDigit hbyte
  exact ⟨skip_cons hne.1 _, Reader.string_cons_of_ne spirit hne.1 hne.2 _⟩

/-- A sign and digits start as a number does. -/
theorem startsAsNumber_of_digits {digits : Bytes} (h : WholeDigits digits) (negative : Bool)
    (tail : Bytes) :
    StartsAsNumber ((if negative then [45] else []) ++ (digits ++ tail)) := by
  cases negative with
  | true => exact ⟨45, digits ++ tail, rfl, .inl rfl⟩
  | false =>
      obtain ⟨first, rest, rfl⟩ := List.exists_cons_of_ne_nil h.1
      exact ⟨first, rest ++ tail, rfl, .inr (h.2.1 first List.mem_cons_self)⟩

/-- An integer literal starts as a number does. -/
theorem IntLiteral.startsAsNumber (literal : IntLiteral) : StartsAsNumber literal.text := by
  simpa [IntLiteral.text] using startsAsNumber_of_digits literal.whole literal.negative []

/-- A real literal starts as a number does. -/
theorem RealLiteral.startsAsNumber (literal : RealLiteral) : StartsAsNumber literal.text :=
  startsAsNumber_of_digits literal.whole literal.negative _

/-- The reader finds the number of an integer literal. -/
theorem IntLiteral.number_text (spirit : Primitives) (literal : IntLiteral) {rest : Bytes}
    (hrest : EndsNumber rest) :
    Reader.number spirit (literal.text ++ rest) = some (literal.value, rest) := by
  rw [Reader.number, (literal.startsAsNumber.head rest spirit).1,
    spirit.strictReal_int literal rest hrest, spirit.int64_int literal rest hrest,
    IntLiteral.value]
  by_cases hsmall : literal.number < 2 ^ 63
  · rw [if_pos hsmall, if_pos hsmall]
    rfl
  · rw [if_neg hsmall, if_neg hsmall,
      spirit.uint64_int literal rest hrest (Int.not_lt.mp hsmall)]
    rfl

/-- The reader finds the number of a real literal. -/
theorem RealLiteral.number_text (spirit : Primitives) (literal : RealLiteral) {rest : Bytes}
    (hrest : EndsNumber rest) :
    Reader.number spirit (literal.text ++ rest) = some (.real literal.text, rest) := by
  rw [Reader.number, (literal.startsAsNumber.head rest spirit).1,
    spirit.strictReal_real literal rest hrest]
  rfl

/-! ## The reader on documents -/

/-- A number ends before a character that cannot belong to it. -/
theorem endsNumber_cons {byte : UInt8} (hdigit : isDigit byte = false)
    (hnot : byte ≠ 46 ∧ byte ≠ 69 ∧ byte ≠ 101) (rest : Bytes) : EndsNumber (byte :: rest) := by
  intro first hfirst
  rw [List.head?_cons, Option.mem_some_iff] at hfirst
  exact hfirst ▸ ⟨hdigit, hnot⟩

/-- A number ends before white space. -/
theorem EndsNumber.spaces {rest : Bytes} (h : EndsNumber rest) (spaces : Spaces) :
    EndsNumber (spaces.bytes ++ rest) := by
  obtain ⟨bytes, hblank⟩ := spaces
  cases bytes with
  | nil => exact h
  | cons byte bytes =>
      rcases hblank byte List.mem_cons_self with rfl | rfl | rfl | rfl <;>
        exact endsNumber_cons (by decide) (by decide) _

/-- A value that starts with a given character is neither a string nor a number. -/
def StartsOther (byte : UInt8) : Prop :=
  isSpace byte = false ∧ byte ≠ quote ∧ startsNumber byte = false

/-- `StartsOther` compares one byte. -/
instance (byte : UInt8) : Decidable (StartsOther byte) :=
  inferInstanceAs (Decidable (_ ∧ _ ∧ _))

namespace Reader

variable (spirit : Primitives) (fuel : Nat)

/-- Reading an array starts behind its bracket. -/
theorem value_array (text : Bytes) :
    value spirit (fuel + 1) (91 :: text) = compound (value spirit fuel) 93 .array text := by
  simp only [value, string_cons_of_ne spirit (show isSpace 91 = false by decide) (by decide),
    number_cons_of_not spirit (show isSpace 91 = false by decide) (by decide),
    char_cons_of_ne (show isSpace 91 = false by decide) (show (91 : UInt8) ≠ 123 by decide),
    char_cons (show isSpace 91 = false by decide)]

/-- Reading an object starts behind its bracket. -/
theorem value_obj (text : Bytes) :
    value spirit (fuel + 1) (123 :: text) =
      compound (pair spirit (value spirit fuel)) 125 .obj text := by
  simp only [value, string_cons_of_ne spirit (show isSpace 123 = false by decide) (by decide),
    number_cons_of_not spirit (show isSpace 123 = false by decide) (by decide),
    char_cons (show isSpace 123 = false by decide)]

/-- What starts with another character has to be a word. -/
theorem value_word {byte : UInt8} (hother : StartsOther byte) (hobj : byte ≠ 123)
    (harray : byte ≠ 91) (text : Bytes) :
    value spirit (fuel + 1) (byte :: text) = word (byte :: text) := by
  simp only [value, string_cons_of_ne spirit hother.1 hother.2.1,
    number_cons_of_not spirit hother.1 hother.2.2, char_cons_of_ne hother.1 hobj,
    char_cons_of_ne hother.1 harray]

/-- A list of items ends with an item that no comma follows. -/
theorem separated_last {α : Type} {item : Bytes → Parse α} {text rest : Bytes} {found : α}
    (h : item text = .hit found rest) (hend : char comma rest = none) :
    separated item (fuel + 1) text = .hit [found] rest := by
  simp only [separated, h, hend]

/-- A list of items goes on behind a comma. -/
theorem separated_more {α : Type} {item : Bytes → Parse α} {text rest behind last : Bytes}
    {found : α} {values : List α} (h : item text = .hit found rest)
    (hcomma : char comma rest = some behind)
    (hmore : separated item fuel behind = .hit values last) :
    separated item (fuel + 1) text = .hit (found :: values) last := by
  simp only [separated, h, hcomma, hmore]

/-- A compound value ends with its bracket behind the items. -/
theorem compound_of_separated {α : Type} {item : Bytes → Parse α} {close : UInt8}
    {build : List α → Value} {text rest behind : Bytes} {values : List α}
    (h : separated item (text.length + 1) text = .hit values rest)
    (hclose : char close rest = some behind) :
    compound item close build text = .hit (build values) behind := by
  simp only [compound, h, hclose]

/-- A compound value without items. -/
theorem compound_empty {α : Type} {item : Bytes → Parse α} {close : UInt8}
    {build : List α → Value} {text behind : Bytes} (h : item text = .miss)
    (hclose : char close text = some behind) :
    compound item close build text = .hit (build []) behind := by
  simp only [compound, separated, h, hclose]

/-- The reader finds a member when it finds the value in it. -/
theorem pair_memberText {before middle inner after : Spaces} {name : Literal} {text rest : Bytes}
    {item : Bytes → Parse Value} {found : Value}
    (hspaces : ∀ text, item (inner.bytes ++ text) = item text)
    (h : item (text ++ (after.bytes ++ rest)) = .hit found (after.bytes ++ rest)) :
    pair spirit item (memberText before name middle inner text after ++ rest) =
      .hit (name.value, found) (after.bytes ++ rest) := by
  have hcolon : isSpace colon = false := by decide
  simp only [memberText, List.append_assoc, List.cons_append]
  simp only [pair, string_spaces, name.string_text spirit, char_spaces, char_cons hcolon,
    hspaces, h]

end Reader

mutual

/-- The reader finds the value of a document at the front of a text. -/
theorem Doc.value_render (spirit : Primitives) (doc : Doc) {fuel : Nat} {rest : Bytes}
    (hfuel : doc.render.length < fuel) (hrest : EndsNumber rest) :
    Reader.value spirit fuel (doc.render ++ rest) = .hit doc.value rest := by
  obtain ⟨fuel, rfl⟩ := Nat.exists_eq_add_one_of_ne_zero (Nat.ne_zero_of_lt hfuel)
  match doc with
  | .str literal =>
      have hstring := literal.string_text spirit rest
      simp only [Doc.render, Reader.value, hstring, Doc.value]
  | .int literal =>
      have hstring := (literal.startsAsNumber.head rest spirit).2
      have hnumber := literal.number_text spirit hrest
      simp only [Doc.render, Reader.value, hstring, hnumber, Doc.value]
  | .real literal =>
      have hstring := (literal.startsAsNumber.head rest spirit).2
      have hnumber := literal.number_text spirit hrest
      simp only [Doc.render, Reader.value, hstring, hnumber, Doc.value]
  | .bool true => exact Reader.value_word spirit fuel (by decide) (by decide) (by decide) _
  | .bool false => exact Reader.value_word spirit fuel (by decide) (by decide) (by decide) _
  | .null => exact Reader.value_word spirit fuel (by decide) (by decide) (by decide) _
  | .emptyArray inner =>
      simp only [Doc.render, List.cons_append, List.append_assoc, Reader.value_array, Doc.value]
      obtain ⟨fuel, rfl⟩ : ∃ less, fuel = less + 1 :=
        Nat.exists_eq_add_one_of_ne_zero (by simp [Doc.render] at hfuel; omega)
      refine Reader.compound_empty ?_ ?_
      · rw [Reader.value_spaces]
        exact Reader.value_word spirit fuel (by decide) (by decide) (by decide) _
      · rw [Reader.char_spaces]
        exact Reader.char_cons (by decide) rest
  | .array items =>
      simp only [Doc.render, List.length_cons, List.length_append] at hfuel
      simp only [Doc.render, List.cons_append, List.append_assoc, Reader.value_array, Doc.value]
      obtain ⟨spaces, hspaces⟩ := items.separated_render spirit
        (show items.render.length < fuel by omega)
        (show items.render.length < (items.render ++ 93 :: rest).length + 1 by
          rw [List.length_append]
          omega)
      refine Reader.compound_of_separated hspaces ?_
      rw [Reader.char_spaces]
      exact Reader.char_cons (by decide) rest
  | .emptyObj inner =>
      simp only [Doc.render, List.cons_append, List.append_assoc, Reader.value_obj, Doc.value]
      refine Reader.compound_empty ?_ ?_
      · have hstring := Reader.string_cons_of_ne spirit (show isSpace 125 = false by decide)
          (by decide) rest
        simp only [Reader.pair, Reader.string_spaces, List.nil_append, hstring]
      · rw [Reader.char_spaces]
        exact Reader.char_cons (by decide) rest
  | .obj members =>
      simp only [Doc.render, List.length_cons, List.length_append] at hfuel
      simp only [Doc.render, List.cons_append, List.append_assoc, Reader.value_obj, Doc.value]
      obtain ⟨spaces, hspaces⟩ := members.separated_render spirit
        (show members.render.length < fuel by omega)
        (show members.render.length < (members.render ++ 125 :: rest).length + 1 by
          rw [List.length_append]
          omega)
      refine Reader.compound_of_separated hspaces ?_
      rw [Reader.char_spaces]
      exact Reader.char_cons (by decide) rest

/-- The reader finds the values of the items of an array. -/
theorem Items.separated_render (spirit : Primitives) (items : Items) {fuel steps : Nat}
    {rest : Bytes} (hfuel : items.render.length < fuel) (hsteps : items.render.length < steps) :
    ∃ spaces : Spaces, Reader.separated (Reader.value spirit fuel) steps
      (items.render ++ 93 :: rest) = .hit items.values (spaces.bytes ++ 93 :: rest) := by
  obtain ⟨steps, rfl⟩ := Nat.exists_eq_add_one_of_ne_zero (Nat.ne_zero_of_lt hsteps)
  match items with
  | .last before doc after =>
      simp only [Items.render, List.length_append] at hfuel
      refine ⟨after, ?_⟩
      simp only [Items.render, List.append_assoc, Items.values]
      refine Reader.separated_last steps ?_ ?_
      · rw [Reader.value_spaces]
        exact doc.value_render spirit (by omega)
          ((endsNumber_cons (by decide) (by decide) rest).spaces after)
      · rw [Reader.char_spaces]
        exact Reader.char_cons_of_ne (by decide) (by decide) rest
  | .more before doc after items =>
      simp only [Items.render, List.length_append, List.length_cons] at hfuel hsteps
      obtain ⟨spaces, hspaces⟩ := items.separated_render spirit
        (show items.render.length < fuel by omega) (show items.render.length < steps by omega)
      refine ⟨spaces, ?_⟩
      simp only [Items.render, List.append_assoc, List.cons_append, Items.values]
      have hend : EndsNumber (comma :: (items.render ++ 93 :: rest)) :=
        endsNumber_cons (by decide) (by decide) _
      have hdoc := doc.value_render spirit (show doc.render.length < fuel by omega)
        (hend.spaces after)
      rw [← Reader.value_spaces spirit before] at hdoc
      refine Reader.separated_more steps hdoc ?_ hspaces
      rw [Reader.char_spaces]
      exact Reader.char_cons (by decide) _

/-- The reader finds the fields that the members of an object name. -/
theorem Members.separated_render (spirit : Primitives) (members : Members) {fuel steps : Nat}
    {rest : Bytes} (hfuel : members.render.length < fuel)
    (hsteps : members.render.length < steps) :
    ∃ spaces : Spaces,
      Reader.separated (Reader.pair spirit (Reader.value spirit fuel)) steps
        (members.render ++ 125 :: rest) = .hit members.fields (spaces.bytes ++ 125 :: rest) := by
  obtain ⟨steps, rfl⟩ := Nat.exists_eq_add_one_of_ne_zero (Nat.ne_zero_of_lt hsteps)
  match members with
  | .last before name middle inner doc after =>
      simp only [Members.render, memberText, List.length_append, List.length_cons] at hfuel
      refine ⟨after, Reader.separated_last steps ?_ ?_⟩
      · refine Reader.pair_memberText spirit (Reader.value_spaces spirit inner fuel) ?_
        exact doc.value_render spirit (by omega)
          ((endsNumber_cons (by decide) (by decide) rest).spaces after)
      · rw [Reader.char_spaces]
        exact Reader.char_cons_of_ne (by decide) (by decide) rest
  | .more before name middle inner doc after members =>
      simp only [Members.render, memberText, List.length_append, List.length_cons] at hfuel hsteps
      obtain ⟨spaces, hspaces⟩ := members.separated_render spirit
        (show members.render.length < fuel by omega)
        (show members.render.length < steps by omega)
      refine ⟨spaces, ?_⟩
      simp only [Members.render, List.append_assoc, List.cons_append, Members.fields]
      have hend : EndsNumber (comma :: (members.render ++ 125 :: rest)) :=
        endsNumber_cons (by decide) (by decide) _
      have hdoc := doc.value_render spirit (show doc.render.length < fuel by omega)
        (hend.spaces after)
      refine Reader.separated_more steps
        (Reader.pair_memberText spirit (Reader.value_spaces spirit inner fuel) hdoc) ?_ hspaces
      rw [Reader.char_spaces]
      exact Reader.char_cons (by decide) _

end

/-- The reader finds in the text of a document, alone or in front of white space, the value that
the document names. -/
theorem Doc.read_render (spirit : Primitives) (doc : Doc) (before after : Spaces) :
    Reader.read spirit (before.bytes ++ (doc.render ++ after.bytes)) = some doc.value := by
  have hend : EndsNumber (after.bytes ++ []) :=
    EndsNumber.spaces (fun byte hbyte => absurd hbyte (by simp)) after
  rw [List.append_nil] at hend
  rw [Reader.read, Reader.value_spaces, doc.value_render spirit (by
    rw [List.length_append, List.length_append]
    omega) hend]

/-- A document has a text. -/
theorem Doc.render_ne_nil (doc : Doc) : doc.render ≠ [] := by
  match doc with
  | .str _ | .bool true | .bool false | .null => exact List.cons_ne_nil _ _
  | .emptyArray _ | .array _ | .emptyObj _ | .obj _ => exact List.cons_ne_nil _ _
  | .int literal =>
      obtain ⟨byte, rest, htext, -⟩ := literal.startsAsNumber
      rw [Doc.render, htext]
      exact List.cons_ne_nil _ _
  | .real literal =>
      obtain ⟨byte, rest, htext, -⟩ := literal.startsAsNumber
      rw [Doc.render, htext]
      exact List.cons_ne_nil _ _

/-! ## Copying without white space -/

@[simp] theorem copyChars_append (left right : Bytes) :
    copyChars (left ++ right) = copyChars left ++ copyChars right :=
  List.filter_append left right

@[simp] theorem copyChars_nil : copyChars [] = [] := rfl

/-- White space is not copied. -/
@[simp] theorem copyChars_spaces (spaces : Spaces) : copyChars spaces.bytes = [] := by
  refine List.filter_eq_nil_iff.mpr fun byte hbyte => ?_
  simp [spaces.isSpace byte hbyte]

/-- Any other character is copied. -/
theorem copyChars_cons {byte : UInt8} (hbyte : isSpace byte = false) (text : Bytes) :
    copyChars (byte :: text) = byte :: copyChars text :=
  List.filter_cons_of_pos (by simp [hbyte])

/-- A text is copied as it is exactly if it has no white space. -/
theorem copyChars_eq_self_iff {text : Bytes} :
    copyChars text = text ↔ ∀ byte ∈ text, isSpace byte = false := by
  rw [copyChars, List.filter_eq_self]
  exact forall₂_congr fun byte _ => by simp

/-- Digits are copied. -/
theorem copyChars_digits {digits : Bytes} (h : ∀ digit ∈ digits, isDigit digit) :
    copyChars digits = digits :=
  copyChars_eq_self_iff.mpr fun digit hdigit => (ne_of_isDigit (h digit hdigit)).1

/-- A sign is copied. -/
theorem copyChars_sign (negative : Bool) :
    copyChars (if negative then [45] else []) = if negative then [45] else [] := by
  cases negative <;> rfl

/-- An integer literal is copied. -/
theorem IntLiteral.copyChars_text (literal : IntLiteral) :
    copyChars literal.text = literal.text := by
  rw [IntLiteral.text, copyChars_append, copyChars_sign, copyChars_digits literal.whole.2.1]

/-- An exponent is copied. -/
theorem Exponent.copyChars_text (exponent : Exponent) :
    copyChars exponent.text = exponent.text := by
  obtain ⟨upper, sign, digits, nonempty, decimal⟩ := exponent
  have hletter : isSpace (if upper then 69 else 101) = false := by cases upper <;> rfl
  rw [Exponent.text, copyChars_cons hletter, copyChars_append, copyChars_digits decimal]
  rcases sign with _ | _ | _ <;> rfl

/-- A real literal is copied. -/
theorem RealLiteral.copyChars_text (literal : RealLiteral) :
    copyChars literal.text = literal.text := by
  have hfraction : copyChars (if literal.fraction = [] then [] else 46 :: literal.fraction) =
      if literal.fraction = [] then [] else 46 :: literal.fraction := by
    split
    · rfl
    · rw [copyChars_cons (by decide), copyChars_digits literal.decimal]
  have hexponent : copyChars (literal.exponent.elim [] Exponent.text) =
      literal.exponent.elim [] Exponent.text := by
    cases literal.exponent with
    | none => rfl
    | some exponent => exact exponent.copyChars_text
  rw [RealLiteral.text, copyChars_append, copyChars_append, copyChars_append, copyChars_sign,
    copyChars_digits literal.whole.2.1, hfraction, hexponent]

/-- An escape is copied. -/
theorem copyChars_escape (mark : Escape) (text : Bytes) :
    copyChars (backslash :: mark.letter :: text) = backslash :: mark.letter :: copyChars text := by
  rw [copyChars_cons (by decide), copyChars_cons (by cases mark <;> decide)]

/-- Hexadecimal digits are no white space. -/
theorem isSpace_of_isHexDigit {byte : UInt8} (h : isHexDigit byte = true) :
    isSpace byte = false := by
  simp only [isHexDigit, isDigit, Bool.or_eq_true, Bool.and_eq_true, decide_eq_true_eq,
    UInt8.le_iff_toNat_le] at h
  simp only [isSpace, Bool.or_eq_false_iff, decide_eq_false_iff_not, Bool.and_eq_false_iff,
    UInt8.le_iff_toNat_le, ← UInt8.toNat_inj]
  have h48 : (48 : UInt8).toNat = 48 := rfl
  have h97 : (97 : UInt8).toNat = 97 := rfl
  have h65 : (65 : UInt8).toNat = 65 := rfl
  have h13 : (13 : UInt8).toNat = 13 := rfl
  have h32 : (32 : UInt8).toNat = 32 := rfl
  omega

/-- A plain character of a literal is white space only if it is a space. -/
theorem isSpace_of_high {byte : UInt8} (high : 32 ≤ byte) (hne : byte ≠ 32) :
    isSpace byte = false := by
  have hhigh : 32 ≤ byte.toNat := UInt8.le_iff_toNat_le.mp high
  simp only [isSpace, Bool.or_eq_false_iff, decide_eq_false_iff_not, Bool.and_eq_false_iff,
    UInt8.le_iff_toNat_le]
  exact ⟨hne, .inr (Nat.not_le.mpr (lt_of_lt_of_le (by decide) hhigh))⟩

/-- Of the characters of a literal all but the unescaped spaces are copied. -/
theorem Literal.copyChars_chars (literal : Literal) :
    copyChars literal.chars = literal.strip.chars := by
  induction literal with
  | nil => rfl
  | cons char literal ih =>
      have hchars : Literal.chars (char :: literal) = char.text ++ Literal.chars literal := rfl
      have hkeep (hchar : char.isBlank = false) : Literal.chars (Literal.strip (char :: literal)) =
          char.text ++ Literal.chars (Literal.strip literal) := by
        rw [Literal.strip, List.filter_cons_of_pos (by simp [hchar])]
        rfl
      rw [hchars, copyChars_append, ih]
      cases char with
      | plain byte high hquote hback =>
          by_cases hblank : byte = 32
          · have hdrop : Literal.strip (.plain byte high hquote hback :: literal) =
                Literal.strip literal := List.filter_cons_of_neg (by simp [LiteralChar.isBlank, hblank])
            rw [hdrop, LiteralChar.text, hblank]
            rfl
          · rw [hkeep (by simp [LiteralChar.isBlank, hblank]), LiteralChar.text,
              copyChars_cons (isSpace_of_high high hblank)]
            rfl
      | escape mark =>
          rw [hkeep rfl, LiteralChar.text, copyChars_escape]
          rfl
      | unicode h1 h2 h3 h4 hex =>
          obtain ⟨x1, x2, x3, x4⟩ := hex
          have hself : copyChars [backslash, letterU, h1, h2, h3, h4] =
              [backslash, letterU, h1, h2, h3, h4] := by
            rw [copyChars_cons (by decide), copyChars_cons (by decide),
              copyChars_cons (isSpace_of_isHexDigit x1), copyChars_cons (isSpace_of_isHexDigit x2),
              copyChars_cons (isSpace_of_isHexDigit x3), copyChars_cons (isSpace_of_isHexDigit x4),
              copyChars_nil]
          rw [hkeep rfl, LiteralChar.text, hself]

/-- Copying a literal drops its unescaped spaces. -/
theorem Literal.copyChars_text (literal : Literal) :
    copyChars literal.text = literal.strip.text := by
  have hquote : isSpace quote = false := by decide
  rw [Literal.text, copyChars_cons hquote, copyChars_append, literal.copyChars_chars,
    copyChars_cons hquote, copyChars_nil, Literal.text]

/-- Copying a member. -/
theorem copyChars_memberText (before : Spaces) (name : Literal) (middle inner : Spaces)
    (text : Bytes) (after : Spaces) :
    copyChars (memberText before name middle inner text after) =
      memberText .none name.strip .none .none (copyChars text) .none := by
  simp [memberText, copyChars_cons (show isSpace colon = false by decide), name.copyChars_text,
    Spaces.none]

mutual

/-- Copying the text of a document gives the text of the stripped document. -/
theorem Doc.copyChars_render (doc : Doc) : copyChars doc.render = doc.strip.render := by
  match doc with
  | .str literal => exact literal.copyChars_text
  | .int literal => exact literal.copyChars_text
  | .real literal => exact literal.copyChars_text
  | .bool true => rfl
  | .bool false => rfl
  | .null => rfl
  | .emptyArray inner =>
      rw [Doc.render, copyChars_cons (by decide), copyChars_append, copyChars_spaces]
      rfl
  | .array items =>
      rw [Doc.render, copyChars_cons (by decide), copyChars_append, items.copyChars_render]
      rfl
  | .emptyObj inner =>
      rw [Doc.render, copyChars_cons (by decide), copyChars_append, copyChars_spaces]
      rfl
  | .obj members =>
      rw [Doc.render, copyChars_cons (by decide), copyChars_append, members.copyChars_render]
      rfl

/-- Copying the text of the items of an array. -/
theorem Items.copyChars_render (items : Items) : copyChars items.render = items.strip.render := by
  have hcomma : isSpace comma = false := by decide
  match items with
  | .last before doc after =>
      simp [Items.render, Items.strip, doc.copyChars_render, Spaces.none]
  | .more before doc after items =>
      simp [Items.render, Items.strip, doc.copyChars_render, items.copyChars_render,
        copyChars_cons hcomma, Spaces.none]

/-- Copying the text of the members of an object. -/
theorem Members.copyChars_render (members : Members) :
    copyChars members.render = members.strip.render := by
  have hcomma : isSpace comma = false := by decide
  match members with
  | .last before name middle inner doc after =>
      rw [Members.render, copyChars_memberText, doc.copyChars_render]
      rfl
  | .more before name middle inner doc after members =>
      rw [Members.render, copyChars_append, copyChars_cons hcomma, copyChars_memberText,
        doc.copyChars_render, members.copyChars_render]
      rfl

end

/-- Stripping a literal keeps its string exactly if it has no unescaped space. -/
theorem Literal.value_strip_iff (literal : Literal) :
    literal.strip.value = literal.value ↔ literal.NoBlank := by
  constructor
  · intro h
    have hlength : (literal.filter (! ·.isBlank)).length = literal.length := by
      simpa [Literal.value, Literal.strip] using congrArg List.length h
    simpa [Literal.NoBlank] using List.length_filter_eq_length_iff.mp hlength
  · intro h
    rw [Literal.strip, List.filter_eq_self.mpr fun char hchar => by simp [h char hchar]]

mutual

/-- Stripping a document keeps its value exactly if its literals have no unescaped space. -/
theorem Doc.value_strip_iff (doc : Doc) : doc.strip.value = doc.value ↔ doc.NoBlank := by
  match doc with
  | .str literal =>
      simp only [Doc.strip, Doc.value, Doc.NoBlank, Value.str.injEq, literal.value_strip_iff]
  | .int literal => simp [Doc.strip, Doc.NoBlank]
  | .real literal => simp [Doc.strip, Doc.NoBlank]
  | .bool flag => simp [Doc.strip, Doc.NoBlank]
  | .null => simp [Doc.strip, Doc.NoBlank]
  | .emptyArray inner => simp [Doc.strip, Doc.value, Doc.NoBlank]
  | .array items =>
      simp only [Doc.strip, Doc.value, Doc.NoBlank, Value.array.injEq, items.values_strip_iff]
  | .emptyObj inner => simp [Doc.strip, Doc.value, Doc.NoBlank]
  | .obj members =>
      simp only [Doc.strip, Doc.value, Doc.NoBlank, Value.obj.injEq, members.fields_strip_iff]

/-- Stripping keeps the values of the items exactly if their literals have no unescaped space. -/
theorem Items.values_strip_iff (items : Items) :
    items.strip.values = items.values ↔ items.NoBlank := by
  match items with
  | .last before doc after =>
      simp only [Items.strip, Items.values, Items.NoBlank, List.cons.injEq, and_true,
        doc.value_strip_iff]
  | .more before doc after items =>
      simp only [Items.strip, Items.values, Items.NoBlank, List.cons.injEq, doc.value_strip_iff,
        items.values_strip_iff]

/-- Stripping keeps the fields of an object exactly if no literal has an unescaped space. -/
theorem Members.fields_strip_iff (members : Members) :
    members.strip.fields = members.fields ↔ members.NoBlank := by
  match members with
  | .last before name middle inner doc after =>
      simp only [Members.strip, Members.fields, Members.NoBlank, List.cons.injEq, Prod.mk.injEq,
        and_true, name.value_strip_iff, doc.value_strip_iff]
  | .more before name middle inner doc after members =>
      simp only [Members.strip, Members.fields, Members.NoBlank, List.cons.injEq, Prod.mk.injEq,
        name.value_strip_iff, doc.value_strip_iff, members.fields_strip_iff, and_assoc]

end

end AnarchNet.Json
