import AnarchNet.Archive
import AnarchNet.Lib.Delimited

/-!
# The text of a JSON value

`write` of `boost::json` without options: no white space, and characters that cannot be printed are
escaped. A brace or a dollar sign stands for itself in a string, so the mark of three of them is in
the text of a value exactly if it is in one of the strings (`Printing.carries_write`).
-/

namespace AnarchNet.Json

open FileSystem Delimited

/-- What the text depends on besides the value: `iswprint` of the locale, and `append_double` for a
number with this literal. -/
structure Printing where
  iswprint : UInt8 → Bool
  appendDouble : Bytes → Bytes
  iswprint_ascii : ∀ char, 32 ≤ char → char ≤ 126 → iswprint char = true
  appendDouble_chars : ∀ literal, ∀ char ∈ appendDouble literal, char ∈ ascii "0123456789+-.einfa"

/-- `to_hex_char`. -/
def toHexChar (c : Nat) : UInt8 := if c < 10 then 48 + UInt8.ofNat c else 65 - 10 + UInt8.ofNat c

/-- `non_printable_to_string`. -/
def nonPrintableToString (c : UInt8) : Bytes :=
  [92, 117, 48, 48, toHexChar (c.toNat / 16), toHexChar (c.toNat % 16)]

/-- `add_esc_char`. -/
def addEscChar : UInt8 → Option Bytes
  | 34 => some (ascii "\\\"")
  | 92 => some (ascii "\\\\")
  | 8 => some (ascii "\\b")
  | 12 => some (ascii "\\f")
  | 10 => some (ascii "\\n")
  | 13 => some (ascii "\\r")
  | 9 => some (ascii "\\t")
  | _ => none

namespace Printing

variable (printing : Printing)

/-- One round of the loop of `add_esc_chars`. -/
def escChar (c : UInt8) : Bytes :=
  match addEscChar c with
  | some text => text
  | none => if printing.iswprint c then [c] else nonPrintableToString c

/-- `add_esc_chars`. -/
def addEscChars (s : Bytes) : Bytes := s.flatMap printing.escChar

/-- `output` for a string. -/
def outputStr (s : Bytes) : Bytes := 34 :: (printing.addEscChars s ++ [34])

/-- A signed number in a stream. -/
def outputInt (number : Int) : Bytes :=
  if number < 0 then 45 :: Archive.decimal number.natAbs else Archive.decimal number.natAbs

mutual

/-- `output`. -/
def output : Value → Bytes
  | .obj fields => 123 :: (outputFields fields ++ [125])
  | .array items => 91 :: (outputItems items ++ [93])
  | .str text => printing.outputStr text
  | .bool flag => if flag then ascii "true" else ascii "false"
  | .int number => outputInt number
  | .real literal => printing.appendDouble literal
  | .null => ascii "null"
  | .uint number => Archive.decimal number

/-- The loop of `output_array_or_obj` over the items of an array. -/
def outputItems : List Value → Bytes
  | [] => []
  | item :: rest => output item ++ (if rest.isEmpty then [] else [44]) ++ outputItems rest

/-- The loop of `output_array_or_obj` over the members of an object. -/
def outputFields : List (Bytes × Value) → Bytes
  | [] => []
  | (name, value) :: rest =>
      printing.outputStr name ++ [58] ++ output value ++ (if rest.isEmpty then [] else [44]) ++
        outputFields rest

end

/-- `write`. -/
def write (value : Value) : Bytes := printing.output value

end Printing

mutual

/-- The strings in a value, with the names of members. -/
def Value.strings : Value → List Bytes
  | .obj fields => fieldStrings fields
  | .array items => itemStrings items
  | .str text => [text]
  | .bool _ => []
  | .int _ => []
  | .real _ => []
  | .null => []
  | .uint _ => []

/-- The strings in the items of an array. -/
def itemStrings : List Value → List Bytes
  | [] => []
  | item :: rest => item.strings ++ itemStrings rest

/-- The strings in the members of an object. -/
def fieldStrings : List (Bytes × Value) → List Bytes
  | [] => []
  | (name, value) :: rest => [name] ++ value.strings ++ fieldStrings rest

end

/-- The mark of the texts on a connection. -/
def markText : Bytes := [123, 36, 125]

@[simp] theorem markText_ne_nil : markText ≠ [] := by decide

/-- The text carries these strings, as far as copies of the mark are concerned. -/
abbrev Shows (text : Bytes) (strings : List Bytes) : Prop := Carries 123 36 125 text strings

/-- An escape is not empty and has no character of the mark. -/
theorem addEscChar_apart {c : UInt8} {text : Bytes} (h : addEscChar c = some text) :
    c ∉ markText ∧ text ≠ [] ∧ ∀ new ∈ text, new ∉ markText := by
  unfold addEscChar at h
  split at h
  case h_8 => cases h
  all_goals
    rw [← Option.some.inj h]
    decide +kernel

/-- A digit is no character of the mark. -/
theorem toHexChar_apart {c : Nat} (h : c < 16) : toHexChar c ∉ markText := by
  revert c
  decide

namespace Printing

variable (printing : Printing)

/-- The characters of the mark stand for themselves. -/
theorem escChar_mark {c : UInt8} (h : c ∈ markText) : printing.escChar c = [c] := by
  have hprint : printing.iswprint c = true := by
    simp only [markText, List.mem_cons, List.not_mem_nil, or_false] at h
    rcases h with rfl | rfl | rfl <;> exact printing.iswprint_ascii _ (by decide) (by decide)
  unfold escChar
  cases hesc : addEscChar c with
  | some text => exact absurd h (addEscChar_apart hesc).1
  | none => rw [if_pos hprint]

/-- No other character makes one of them. -/
theorem escChar_apart {c : UInt8} (h : c ∉ markText) :
    printing.escChar c ≠ [] ∧ ∀ new ∈ printing.escChar c, new ∉ markText := by
  unfold escChar
  cases hesc : addEscChar c with
  | some text => exact (addEscChar_apart hesc).2
  | none =>
      by_cases hprint : printing.iswprint c = true
      · rw [if_pos hprint]
        simpa using h
      · rw [if_neg hprint]
        have hlt := c.toNat_lt
        have hhigh := toHexChar_apart (show c.toNat / 16 < 16 by omega)
        have hlow := toHexChar_apart (show c.toNat % 16 < 16 by omega)
        refine ⟨by simp [nonPrintableToString], fun new hnew => ?_⟩
        simp only [nonPrintableToString, List.mem_cons, List.not_mem_nil, or_false] at hnew
        rcases hnew with rfl | rfl | rfl | rfl | rfl | rfl
        · decide
        · decide
        · decide
        · decide
        · exact hhigh
        · exact hlow

/-- A string carries itself. -/
theorem shows_outputStr (s : Bytes) : Shows (printing.outputStr s) [s] := by
  have hcopies : markText <:+: printing.addEscChars s ↔ markText <:+: s :=
    infix_flatMap_iff (by decide) (fun _ h => printing.escChar_mark h)
      (fun _ h => printing.escChar_apart h) s
  exact Carries.enclose (by decide) (by decide) hcopies

/-- A number carries no string. -/
theorem shows_decimal (number : Nat) : Shows (Archive.decimal number) [] :=
  Carries.of_not_mem fun h => absurd (Archive.le_of_mem_decimal h) (by decide)

/-- A signed number carries no string. -/
theorem shows_outputInt (number : Int) : Shows (outputInt number) [] := by
  unfold outputInt
  split
  · have hsign : Shows [45] [] := Carries.of_not_mem (by decide)
    exact hsign.append (shows_decimal _)
  · exact shows_decimal _

/-- What stands between two items carries no string. -/
theorem shows_comma {α : Type} (rest : List α) :
    Shows (if rest.isEmpty then [] else [44]) [] := by
  split <;> exact Carries.of_not_mem (by decide)

/-- A colon carries no string. -/
theorem shows_colon : Shows [58] [] := Carries.of_not_mem (by decide)

/-- Brackets around a text carry no more strings. -/
theorem shows_bracket {text : Bytes} {strings : List Bytes} (h : Shows text strings)
    {left right : UInt8} (hleft : 36 ≠ left) (hright : 36 ≠ right) :
    Shows (left :: (text ++ [right])) strings := by
  have hopen : Shows [left] [] := Carries.of_not_mem (by simpa using hleft)
  have hclose : Shows [right] [] := Carries.of_not_mem (by simpa using hright)
  simpa using hopen.append (h.append hclose)

mutual

/-- The text of a value carries its strings. -/
theorem shows_output : ∀ value : Value, Shows (printing.output value) value.strings
  | .obj fields => shows_bracket (shows_outputFields fields) (by decide) (by decide)
  | .array items => shows_bracket (shows_outputItems items) (by decide) (by decide)
  | .str text => printing.shows_outputStr text
  | .bool true => Carries.of_not_mem (show 36 ∉ ascii "true" by decide)
  | .bool false => Carries.of_not_mem (show 36 ∉ ascii "false" by decide)
  | .int number => shows_outputInt number
  | .real literal => Carries.of_not_mem fun h =>
      absurd (printing.appendDouble_chars literal _ h) (by decide)
  | .null => Carries.of_not_mem (show 36 ∉ ascii "null" by decide)
  | .uint number => shows_decimal number

/-- The text of the items of an array carries their strings. -/
theorem shows_outputItems : ∀ items, Shows (printing.outputItems items) (itemStrings items)
  | [] => Carries.of_not_mem List.not_mem_nil
  | item :: rest => by
      rw [outputItems, itemStrings, ← List.append_nil item.strings]
      exact ((shows_output item).append (shows_comma rest)).append (shows_outputItems rest)

/-- The text of the members of an object carries their strings. -/
theorem shows_outputFields : ∀ fields, Shows (printing.outputFields fields) (fieldStrings fields)
  | [] => Carries.of_not_mem List.not_mem_nil
  | (name, value) :: rest => by
      have hmember := ((printing.shows_outputStr name).append (shows_colon)).append
        (shows_output value)
      have h := (hmember.append (shows_comma rest)).append (shows_outputFields rest)
      rw [List.append_nil, List.append_nil] at h
      exact h

end

/-- The mark is in the text of a value exactly if it is in one of its strings. -/
theorem mark_infix_write_iff (value : Value) :
    markText <:+: printing.write value ↔ ∃ text ∈ value.strings, markText <:+: text :=
  (printing.shows_output value).copies

end Printing

end AnarchNet.Json
