import AnarchNet.Archive
import AnarchNet.Bootstrap.Hostlist
import AnarchNet.DiffMatchPatch.Patch
import AnarchNet.Json.Spirit
import AnarchNet.Rpc.Request
import Mathlib.Data.Nat.Digits.Lemmas

/-!
# Patches as texts

`patch_toText` and `patch_fromText` of `diff_match_patch.h`, with the percent encoding of the texts
of diffs. The encoding is made for code points. A character is a signed byte here, so one that is
not ASCII is a code point far outside of Unicode, of which nothing is read back.
-/

namespace AnarchNet.DiffMatchPatch

open FileSystem EditScript Json Native

/-! ## Percent encoding -/

/-- `safe_chars`, with the zero behind them. -/
def safeChars : Bytes :=
  ascii "0123456789ABCDEFGHIJKLMNOPQRSTUVWXYZabcdefghijklmnopqrstuvwxyz-_.~ !*'();/?:@&=+$,#" ++
    [0]

/-- The character is not escaped. -/
def isSafe (char : UInt8) : Bool := safeChars.contains char

/-- `to_utf32`: a signed character as an unsigned number of 32 bits. -/
def utf32 (char : UInt8) : Nat := if char < 128 then char.toNat else 2 ^ 32 - 256 + char.toNat

/-- The number of characters that a code point is encoded in. -/
def encodedSize (u : Nat) : Nat :=
  if 0x10000 ≤ u then 12
  else if 0x800 ≤ u then 9
  else if 0x80 ≤ u then 6
  else if isSafe (UInt8.ofNat u) then 1
  else 3

/-- The UTF-8 bytes of a code point. -/
def utf8 (u : Nat) : Bytes :=
  if u < 0x80 then [UInt8.ofNat u]
  else if u < 0x800 then [UInt8.ofNat ((u >>> 6) ||| 0xC0), UInt8.ofNat ((u &&& 0x3F) ||| 0x80)]
  else if u < 0x10000 then
    [UInt8.ofNat ((u >>> 12) ||| 0xE0), UInt8.ofNat (((u >>> 6) &&& 0x3F) ||| 0x80),
      UInt8.ofNat ((u &&& 0x3F) ||| 0x80)]
  else
    [UInt8.ofNat ((u >>> 18) ||| 0xF0), UInt8.ofNat (((u >>> 12) &&& 0x3F) ||| 0x80),
      UInt8.ofNat (((u >>> 6) &&& 0x3F) ||| 0x80), UInt8.ofNat ((u &&& 0x3F) ||| 0x80)]

/-- A hexadecimal digit is among the first characters that are safe. -/
def hexChar (value : UInt8) : UInt8 := safeChars.getD value.toNat 0

/-- A byte, escaped unless it is safe. -/
def escape (byte : UInt8) : Bytes :=
  if isSafe byte then [byte] else [37, hexChar (byte >>> 4), hexChar (byte &&& 0xF)]

/-- The number of characters that a text is encoded in. -/
def encodedLength (text : Bytes) : Nat :=
  text.foldl (fun n char => n + encodedSize (utf32 char)) 0

/-- What `append_percent_encoded` appends. It counts in an `int`. -/
def percentEncoded (text : Bytes) : Except Stop Bytes :=
  if 2 ^ 31 ≤ encodedLength text then throw .range
  else if encodedLength text = text.length then return text
  else return text.flatMap fun char => (utf8 (utf32 char)).flatMap escape

/-- The exception for a character that is no digit. -/
def invalidCharacter (char : UInt8) : Bytes := ascii "Invalid character: " ++ [char]

/-- `hex_digit_value`. -/
def hexDigitValue (char : UInt8) : Except Bytes UInt8 :=
  if isDigit char then .ok (char - 48)
  else if 65 ≤ char ∧ char ≤ 70 then .ok (char - 55)
  else if 97 ≤ char ∧ char ≤ 102 then .ok (char - 87)
  else .error (invalidCharacter char)

/-- The first loop of `percent_decode`. Behind the end of the text is a zero. -/
def unescape : Bytes → Except Bytes Bytes
  | [] => return []
  | [char] => if char = 37 then throw (invalidCharacter 0) else return [char]
  | [char, d1] =>
      if char = 37 then do
        let _ ← hexDigitValue d1
        throw (invalidCharacter 0)
      else do
        let rest ← unescape [d1]
        return char :: rest
  | char :: d1 :: d2 :: rest =>
      if char = 37 then do
        let high ← hexDigitValue d1
        let low ← hexDigitValue d2
        let rest ← unescape rest
        return ((high <<< 4) + low) :: rest
      else do
        let rest ← unescape (d1 :: d2 :: rest)
        return char :: rest

/-- One turn of the second loop of `percent_decode`. A negative character is none that begins a
sequence of UTF-8, and is skipped. -/
def decodeChar (char : UInt8) : Bytes := if utf32 char < 0x80 then [char] else []

/-- `percent_decode`. -/
def percentDecode (text : Bytes) : Except Bytes Bytes := do
  let bytes ← unescape text
  return bytes.flatMap decodeChar

/-! ## Writing -/

/-- `to_string`. -/
def toString (n : Int) : Bytes :=
  if n < 0 then 45 :: Archive.decimal n.natAbs else Archive.decimal n.natAbs

/-- The coordinates of a text in the head of a patch. -/
def coords (start length : Int) : Bytes :=
  if length = 0 then toString start ++ ascii ",0"
  else if length = 1 then toString (start + 1)
  else toString (start + 1) ++ 44 :: toString length

/-- The sign of an operation. -/
def sign : Operation → UInt8
  | .insert => 43
  | .delete => 45
  | .equal => 32

/-- The line of a diff. -/
def diffLine (diff : Diff) : Except Stop Bytes := do
  let text ← percentEncoded diff.text
  return sign diff.operation :: text ++ [10]

/-- The head of a patch. -/
def headLine (patch : Patch) : Bytes :=
  ascii "@@ -" ++ coords patch.start1 patch.length1 ++ ascii " +" ++
    coords patch.start2 patch.length2 ++ ascii " @@"

/-- `Patch::toString`. -/
def patchText (patch : Patch) : Except Stop Bytes := do
  let lines ← patch.diffs.mapM diffLine
  return headLine patch ++ 10 :: lines.flatten

/-- `patch_toText`. -/
def patchToText (patches : List Patch) : Except Stop Bytes := do
  let texts ← patches.mapM patchText
  return texts.flatten

/-! ## Reading -/

/-- The text behind a pattern. -/
def skip (pattern text : Bytes) : Option Bytes :=
  if pattern <+: text then some (text.drop pattern.length) else none

/-- The digits of a start and of a length, which may stand behind a comma. -/
def readCoords (text : Bytes) : Option (Bytes × Bytes × Bytes) :=
  let start := text.takeWhile isDigit
  let rest := text.dropWhile isDigit
  let rest := if rest.head? = some 44 then rest.tail else rest
  if start = [] then none else some (start, rest.takeWhile isDigit, rest.dropWhile isDigit)

/-- The replacement for the regular expression. -/
def matchHead (line : Bytes) : Option ((Bytes × Bytes) × Bytes × Bytes) := do
  let rest ← skip (ascii "@@ -") line
  let (start1, length1, rest) ← readCoords rest
  let rest ← skip (ascii " +") rest
  let (start2, length2, rest) ← readCoords rest
  if rest = ascii " @@" then some ((start1, length1), start2, length2) else none

/-- A start and a length from their digits. -/
def fromCoords (digits : Bytes × Bytes) : Int × Int :=
  if digits.2 = [] then (Hostlist.atoi digits.1 - 1, 1)
  else if digits.2 = [48] then (Hostlist.atoi digits.1, 0)
  else (Hostlist.atoi digits.1 - 1, Hostlist.atoi digits.2)

/-- A patch without its diffs from its head. -/
def readHead (line : Bytes) : Except Bytes Patch :=
  match matchHead line with
  | none => throw (ascii "Invalid patch string: " ++ line)
  | some (coords1, coords2) => return {
      diffs := []
      start1 := (fromCoords coords1).1
      start2 := (fromCoords coords2).1
      length1 := (fromCoords coords1).2
      length2 := (fromCoords coords2).2 }

/-- One line of `patch_fromText`, with the patches that are read and the one that is open. -/
def readLine (state : List Patch × Option Patch) : Bytes → Except Bytes (List Patch × Option Patch)
  | [] => return state
  | sign :: text =>
      match state.2 with
      | none => do
          let patch ← readHead (sign :: text)
          return (state.1, some patch)
      | some patch => do
          let line ← percentDecode text
          if sign = 45 then
            return (state.1, some { patch with diffs := patch.diffs ++ [⟨.delete, line⟩] })
          else if sign = 43 then
            return (state.1, some { patch with diffs := patch.diffs ++ [⟨.insert, line⟩] })
          else if sign = 32 then
            return (state.1, some { patch with diffs := patch.diffs ++ [⟨.equal, line⟩] })
          else if sign = 64 then do
            -- start of the next patch
            let next ← readHead (sign :: text)
            return (state.1 ++ [patch], some next)
          else throw (ascii "Invalid patch mode '" ++ [sign] ++ ascii "' in: " ++ line)

/-- What `next_token` finds at the beginning of each line. -/
def lineTokens (lines : List Bytes) : List Bytes := lines.map (·.takeWhile (· ≠ 10))

/-- The lines that begin in front of a position. -/
def linesBefore (position : Int) : List Bytes → List Bytes
  | [] => []
  | line :: lines =>
      if 0 < position then line :: linesBefore (position - line.length) lines else []

/-- `patch_fromText`. The length of the text is taken for an `int`. -/
def patchFromText (textline : Bytes) : Except Bytes (List Patch) := do
  let lines := linesBefore (Int.bmod textline.length (2 ^ 32)) (linesOf textline)
  let state ← (lineTokens lines).foldlM readLine ([], none)
  return state.1 ++ state.2.toList

/-! ## Percent encoding and decoding -/

/-- The codes of the safe characters. -/
theorem safeChars_eq : safeChars =
    [48, 49, 50, 51, 52, 53, 54, 55, 56, 57, 65, 66, 67, 68, 69, 70, 71, 72, 73, 74, 75, 76, 77, 78,
      79, 80, 81, 82, 83, 84, 85, 86, 87, 88, 89, 90, 97, 98, 99, 100, 101, 102, 103, 104, 105, 106,
      107, 108, 109, 110, 111, 112, 113, 114, 115, 116, 117, 118, 119, 120, 121, 122, 45, 95, 46,
      126, 32, 33, 42, 39, 40, 41, 59, 47, 63, 58, 64, 38, 61, 43, 36, 44, 35, 0] := by
  rfl

/-- A safe character is ASCII, it does not begin an escape and it does not end a line. -/
theorem isSafe_spec {char : UInt8} (h : isSafe char = true) :
    char < 128 ∧ char ≠ 37 ∧ char ≠ 10 := by
  have hall : safeChars.all (fun safe => safe < 128 ∧ safe ≠ 37 ∧ safe ≠ 10) = true := by
    rw [safeChars_eq]
    rfl
  rw [isSafe, List.contains_iff_mem] at h
  exact of_decide_eq_true (List.all_eq_true.1 hall char h)

/-- A character is a code point of one byte only if it is ASCII. -/
theorem utf32_lt_iff (char : UInt8) : utf32 char < 0x80 ↔ char < 128 := by
  have hbyte := char.toNat_lt
  unfold utf32
  split
  · rename_i hascii
    exact iff_of_true (UInt8.lt_iff_toNat_lt.1 hascii) hascii
  · rename_i hother
    exact iff_of_false (by omega) hother

/-- An ASCII character is its own code point. -/
theorem ofNat_utf32 {char : UInt8} (h : utf32 char < 0x80) : UInt8.ofNat (utf32 char) = char := by
  rw [utf32, if_pos ((utf32_lt_iff char).1 h), UInt8.ofNat_toNat]

/-- Only a safe character is encoded as one. -/
theorem encodedSize_spec (char : UInt8) :
    1 ≤ encodedSize (utf32 char) ∧ encodedSize (utf32 char) ≤ 12 ∧
      (encodedSize (utf32 char) = 1 → isSafe char = true) := by
  unfold encodedSize
  split
  · omega
  · split
    · omega
    · split
      · omega
      · rename_i hascii
        rw [ofNat_utf32 (by omega)]
        split
        · rename_i hsafe
          exact ⟨le_refl _, by omega, fun _ => hsafe⟩
        · omega

/-- Only ASCII is decoded. -/
theorem decodeChar_eq (char : UInt8) : decodeChar char = if char < 128 then [char] else [] := by
  unfold decodeChar
  by_cases hascii : char < 128
  · rw [if_pos hascii, if_pos ((utf32_lt_iff char).2 hascii)]
  · rw [if_neg hascii, if_neg fun hless => hascii ((utf32_lt_iff char).1 hless)]

/-- Nothing is decoded of a byte that begins or continues a long sequence. -/
theorem decodeChar_or (bits mark : Nat) (h : 128 ≤ mark) (h' : mark < 256) :
    decodeChar (UInt8.ofNat (bits ||| mark)) = [] := by
  have hmark : mark ≤ (bits ||| mark) % 2 ^ 8 := by
    rw [Nat.or_mod_two_pow, Nat.mod_eq_of_lt h']
    exact Nat.right_le_or
  have hlimit : (128 : UInt8).toNat = 128 := rfl
  rw [decodeChar_eq, if_neg]
  rw [UInt8.lt_iff_toNat_lt, UInt8.toNat_ofNat']
  omega

/-- Nothing is read back of the bytes of a character that is not ASCII. -/
theorem flatMap_decodeChar_utf8 (char : UInt8) :
    (utf8 (utf32 char)).flatMap decodeChar = if char < 128 then [char] else [] := by
  by_cases hascii : char < 128
  · have hless := (utf32_lt_iff char).2 hascii
    rw [utf8, if_pos hless, ofNat_utf32 hless, List.flatMap_cons, List.flatMap_nil, List.append_nil,
      decodeChar_eq]
  · have hlarge : 0x10000 ≤ utf32 char := by
      rw [utf32, if_neg hascii]
      omega
    rw [utf8, if_neg (by omega), if_neg (by omega), if_neg (by omega), if_neg hascii]
    simp only [List.flatMap_cons, List.flatMap_nil,
      decodeChar_or _ 0xF0 (by decide) (by decide), decodeChar_or _ 0x80 (by decide) (by decide)]
    rfl

/-- A hexadecimal digit has its value, and does not end a line. -/
theorem hexChar_spec {value : UInt8} (h : value < 16) :
    hexDigitValue (hexChar value) = .ok value ∧ hexChar value ≠ 10 := by
  have hall : ∀ index : Fin 16,
      (hexDigitValue (hexChar (UInt8.ofNat index))).toOption = some (UInt8.ofNat index) ∧
        hexChar (UInt8.ofNat index) ≠ 10 := by
    simp only [hexChar, safeChars_eq]
    decide
  obtain ⟨hvalue, hline⟩ := hall ⟨value.toNat, UInt8.lt_iff_toNat_lt.1 h⟩
  simp only [UInt8.ofNat_toNat] at hvalue hline
  refine ⟨?_, hline⟩
  cases hresult : hexDigitValue (hexChar value) with
  | ok found =>
      rw [hresult] at hvalue
      cases hvalue
      rfl
  | error fault =>
      rw [hresult] at hvalue
      cases hvalue

/-- The halves of a byte. -/
theorem halves_spec (byte : UInt8) :
    byte >>> 4 < 16 ∧ byte &&& 0xF < 16 ∧ ((byte >>> 4) <<< 4) + (byte &&& 0xF) = byte := by
  have hbyte := byte.toNat_lt
  have hhigh : (byte >>> 4).toNat = byte.toNat / 16 := by
    rw [UInt8.toNat_shiftRight]
    exact Nat.shiftRight_eq_div_pow _ _
  have hlow : (byte &&& 0xF).toNat = byte.toNat % 16 := by
    rw [UInt8.toNat_and]
    exact Nat.and_two_pow_sub_one_eq_mod _ 4
  have hshift : ((byte >>> 4) <<< 4).toNat = byte.toNat / 16 * 16 % 256 := by
    rw [UInt8.toNat_shiftLeft, hhigh]
    exact congrArg (· % 256) (Nat.shiftLeft_eq _ _)
  have hlimit : (16 : UInt8).toNat = 16 := rfl
  refine ⟨?_, ?_, ?_⟩
  · rw [UInt8.lt_iff_toNat_lt]
    omega
  · rw [UInt8.lt_iff_toNat_lt]
    omega
  · apply UInt8.toNat_inj.1
    rw [UInt8.toNat_add, hshift, hlow]
    omega

section Percent

variable {text bytes : Bytes}

/-- A character that begins no escape stands for itself. -/
theorem unescape_cons {char : UInt8} (hchar : char ≠ 37) (h : unescape text = .ok bytes) :
    unescape (char :: text) = .ok (char :: bytes) := by
  cases text with
  | nil =>
      cases h
      rw [unescape, if_neg hchar]
      rfl
  | cons d1 text =>
      cases text with
      | nil => rw [unescape, if_neg hchar, h]; rfl
      | cons d2 text => rw [unescape, if_neg hchar, h]; rfl

/-- A byte is read back, escaped or not. -/
theorem unescape_escape (byte : UInt8) (h : unescape text = .ok bytes) :
    unescape (escape byte ++ text) = .ok (byte :: bytes) := by
  rw [escape]
  split
  · rename_i hsafe
    exact unescape_cons (isSafe_spec hsafe).2.1 h
  · obtain ⟨hhigh, hlow, hbyte⟩ := halves_spec byte
    show unescape (37 :: hexChar (byte >>> 4) :: hexChar (byte &&& 0xF) :: text) = _
    rw [unescape, if_pos rfl, (hexChar_spec hhigh).1, (hexChar_spec hlow).1, h]
    simp only [bind, Except.bind, hbyte]
    rfl

theorem unescape_flatMap_escape (front : Bytes) (h : unescape text = .ok bytes) :
    unescape (front.flatMap escape ++ text) = .ok (front ++ bytes) := by
  induction front with
  | nil => exact h
  | cons byte front ih =>
      rw [List.flatMap_cons, List.append_assoc]
      exact unescape_escape byte ih

/-- A text without escapes. -/
theorem unescape_of_not_mem (h : 37 ∉ text) : unescape text = .ok text := by
  induction text with
  | nil => rfl
  | cons char text ih =>
      rw [List.mem_cons, not_or] at h
      exact unescape_cons (fun heq => h.1 heq.symm) (ih h.2)

/-- A text is encoded in as many characters as it has only if all of them are safe. -/
theorem encodedLength_spec (text : Bytes) : encodedLength text ≤ 12 * text.length ∧
    (encodedLength text = text.length → ∀ char ∈ text, isSafe char = true) := by
  have hfold : ∀ (text : Bytes) (n : Nat),
      n + text.length ≤ text.foldl (fun n char => n + encodedSize (utf32 char)) n ∧
      text.foldl (fun n char => n + encodedSize (utf32 char)) n ≤ n + 12 * text.length ∧
      (text.foldl (fun n char => n + encodedSize (utf32 char)) n = n + text.length →
        ∀ char ∈ text, isSafe char = true) := by
    intro text
    induction text with
    | nil =>
        intro n
        exact ⟨le_refl _, le_refl _, fun _ char hchar => by cases hchar⟩
    | cons first text ih =>
        intro n
        obtain ⟨hle, hlimit, hall⟩ := ih (n + encodedSize (utf32 first))
        obtain ⟨hpos, hmost, hone⟩ := encodedSize_spec first
        rw [List.foldl_cons, List.length_cons]
        refine ⟨by omega, by omega, fun heq char hchar => ?_⟩
        have hsize : encodedSize (utf32 first) = 1 := by omega
        rcases List.mem_cons.1 hchar with rfl | hchar
        · exact hone hsize
        · exact hall (by omega) char hchar
  obtain ⟨-, hlimit, hall⟩ := hfold text 0
  exact ⟨by simpa [encodedLength] using hlimit, fun h => hall (by simpa [encodedLength] using h)⟩

/-- Safe characters are encoded as themselves. -/
theorem encodedLength_of_isSafe (h : ∀ char ∈ text, isSafe char = true) :
    encodedLength text = text.length := by
  have hone : ∀ char ∈ text, encodedSize (utf32 char) = 1 := by
    intro char hchar
    have hless := (utf32_lt_iff char).2 (isSafe_spec (h char hchar)).1
    rw [encodedSize, if_neg (by omega), if_neg (by omega), if_neg (by omega), ofNat_utf32 hless,
      if_pos (h char hchar)]
  have hfold : ∀ (text : Bytes) (n : Nat), (∀ char ∈ text, encodedSize (utf32 char) = 1) →
      text.foldl (fun n char => n + encodedSize (utf32 char)) n = n + text.length := by
    intro text
    induction text with
    | nil => exact fun _ _ => rfl
    | cons first text ih =>
        intro n hall
        obtain ⟨hfirst, hrest⟩ := List.forall_mem_cons.1 hall
        rw [List.foldl_cons, hfirst, ih _ hrest, List.length_cons]
        omega
  rw [encodedLength, hfold text 0 hone, Nat.zero_add]

/-- A text as it is escaped. -/
def escaped (text : Bytes) : Bytes :=
  text.flatMap fun char => (utf8 (utf32 char)).flatMap escape

/-- Escaping leaves safe characters alone. -/
theorem escaped_of_isSafe (h : ∀ char ∈ text, isSafe char = true) : escaped text = text := by
  have hchar : ∀ char ∈ text, ((utf8 (utf32 char)).flatMap escape) = [char] := by
    intro char hmem
    have hless := (utf32_lt_iff char).2 (isSafe_spec (h char hmem)).1
    rw [utf8, if_pos hless, ofNat_utf32 hless, List.flatMap_singleton, escape,
      if_pos (h char hmem)]
  rw [escaped, List.flatMap_congr hchar, List.flatMap_singleton']

/-- A code point has four bytes at most, each of which is escaped by three characters at most. -/
theorem length_escaped_le (text : Bytes) : (escaped text).length ≤ 12 * text.length := by
  have hchar : ∀ char : UInt8, ((utf8 (utf32 char)).flatMap escape).length ≤ 12 := by
    intro char
    have hescape : ∀ byte, (escape byte).length ≤ 3 := by
      intro byte
      rw [escape]
      split
      · exact Nat.le_succ_of_le (Nat.le_succ 1)
      · exact le_refl 3
    have hutf8 : (utf8 (utf32 char)).length ≤ 4 := by
      unfold utf8
      split <;> [skip; split <;> [skip; split]] <;> simp
    have hbytes : ∀ bytes : Bytes, (bytes.flatMap escape).length ≤ 3 * bytes.length := by
      intro bytes
      induction bytes with
      | nil => exact le_refl 0
      | cons byte bytes ih =>
          have hbyte := hescape byte
          rw [List.flatMap_cons, List.length_append, List.length_cons]
          omega
    have hall := hbytes (utf8 (utf32 char))
    omega
  induction text with
  | nil => exact le_refl 0
  | cons char text ih =>
      have hfirst := hchar char
      rw [escaped, List.flatMap_cons, List.length_append, List.length_cons]
      rw [escaped] at ih
      omega

/-- A text is appended escaped, if an `int` holds the number of its characters then. -/
theorem percentEncoded_eq_ok_iff :
    percentEncoded text = .ok bytes ↔ encodedLength text < 2 ^ 31 ∧ bytes = escaped text := by
  unfold percentEncoded
  split
  · rename_i hhuge
    exact iff_of_false (fun h => by cases h) fun h => Nat.not_lt.2 hhuge h.1
  · rename_i hint
    have htext : (if encodedLength text = text.length then return text
        else return escaped text : Except Stop Bytes) = .ok (escaped text) := by
      split
      · rename_i hsame
        rw [escaped_of_isSafe ((encodedLength_spec text).2 hsame)]
        rfl
      · rfl
    rw [show (if encodedLength text = text.length then return text
      else return text.flatMap fun char => (utf8 (utf32 char)).flatMap escape :
        Except Stop Bytes) = .ok (escaped text) from htext, Except.ok.injEq]
    exact ⟨fun h => ⟨Nat.not_le.1 hint, h.symm⟩, fun h => h.2.symm⟩

/-- Choosing a character or nothing is filtering. -/
theorem flatMap_choice (choose : UInt8 → Bytes)
    (h : ∀ char, choose char = if char < 128 then [char] else []) (text : Bytes) :
    text.flatMap choose = text.filter (· < 128) := by
  induction text with
  | nil => rfl
  | cons char text ih =>
      rw [List.flatMap_cons, h, ih, List.filter_cons]
      by_cases hchar : char < 128
      · rw [if_pos hchar, if_pos (decide_eq_true hchar), List.singleton_append]
      · rw [if_neg hchar, if_neg (by simpa using hchar), List.nil_append]

/-- **Percent coding** keeps the ASCII characters of a text and loses all others. -/
theorem percentDecode_escaped (text : Bytes) :
    percentDecode (escaped text) = .ok (text.filter (· < 128)) := by
  have hbytes := unescape_flatMap_escape (text.flatMap fun char => utf8 (utf32 char))
    (show unescape [] = .ok [] from rfl)
  rw [List.append_nil, List.append_nil, List.flatMap_assoc] at hbytes
  rw [percentDecode, escaped, hbytes]
  show Except.ok ((text.flatMap fun char => utf8 (utf32 char)).flatMap decodeChar) = _
  rw [List.flatMap_assoc, flatMap_choice _ flatMap_decodeChar_utf8]

end Percent

/-! ## Numbers -/

section Numbers

variable {number start length : Nat} {rest : Bytes}

theorem isDigit_decimal (number : Nat) : ∀ char ∈ Archive.decimal number, isDigit char = true := by
  intro char h
  unfold Archive.decimal at h
  split at h
  · rw [List.mem_singleton.1 h]
    decide
  · rw [List.mem_map] at h
    obtain ⟨digit, hdigit, rfl⟩ := h
    have hlt := Nat.digits_lt_base (show 1 < 10 by decide) (List.mem_reverse.1 hdigit)
    simp only [isDigit, Bool.and_eq_true, decide_eq_true_eq, UInt8.le_iff_toNat_le,
      UInt8.toNat_ofNat', UInt8.toNat_ofNat]
    omega

theorem decimal_ne_nil (number : Nat) : Archive.decimal number ≠ [] := by
  unfold Archive.decimal
  split
  · exact List.cons_ne_nil _ _
  · rename_i hne
    rw [ne_eq, List.map_eq_nil_iff, List.reverse_eq_nil_iff]
    exact Nat.digits_ne_nil_iff_ne_zero.2 hne

/-- The value of digits, by the last digit first. -/
theorem digitsValue_eq (digits : Bytes) :
    digitsValue digits = Nat.ofDigits 10 (digits.reverse.map fun char => char.toNat - 48) := by
  induction digits using List.reverseRecOn with
  | nil => rfl
  | append_singleton digits digit ih =>
      have hlast : digitsValue (digits ++ [digit]) = digitsValue digits * 10 + (digit.toNat - 48) :=
        List.foldl_append
      rw [hlast, ih, List.reverse_append, List.reverse_singleton, List.singleton_append,
        List.map_cons, Nat.ofDigits_cons, Nat.mul_comm, Nat.add_comm]

/-- A number that is written is read. -/
theorem atoi_decimal (h : number < 2 ^ 31) : Hostlist.atoi (Archive.decimal number) = number := by
  have hvalue : digitsValue (Archive.decimal number) = number := by
    rw [digitsValue_eq, Archive.ofDigits_decimal]
  have hport := Hostlist.Node.called_eq_peer
    { ip := []
      port := Archive.decimal number
      ip_plain := ⟨List.not_mem_nil, List.not_mem_nil⟩
      port_decimal := ⟨decimal_ne_nil number, isDigit_decimal number⟩ }
    (by simp only [hvalue]; exact h)
  have heq := congrArg Hostlist.Peer.port hport
  simp only [Hostlist.Node.called, Hostlist.Node.peer, hvalue] at heq
  exact heq

/-- Neither a digit nor a comma is first. -/
def EndsCoords (rest : Bytes) : Prop := Spirit.EndsDigits rest ∧ rest.head? ≠ some 44

theorem endsCoords_blank (rest : Bytes) : EndsCoords (32 :: rest) := by
  refine ⟨fun byte hbyte => ?_, ?_⟩
  · cases hbyte
    decide
  · rw [List.head?_cons]
    decide

/-- A start without a length. -/
theorem readCoords_decimal (hrest : EndsCoords rest) :
    readCoords (Archive.decimal number ++ rest) = some (Archive.decimal number, [], rest) := by
  obtain ⟨htake, hdrop⟩ := Spirit.takeWhile_digits (isDigit_decimal number) hrest.1
  obtain ⟨hnone, hall⟩ := Spirit.takeWhile_digits (fun _ h => absurd h List.not_mem_nil) hrest.1
  rw [List.nil_append] at hnone hall
  simp only [readCoords, htake, hdrop, if_neg hrest.2, if_neg (decimal_ne_nil number), hnone, hall]

/-- A start and a length behind a comma. -/
theorem readCoords_comma {digits : Bytes} (h : ∀ digit ∈ digits, isDigit digit = true)
    (hrest : EndsCoords rest) :
    readCoords (Archive.decimal number ++ 44 :: (digits ++ rest)) =
      some (Archive.decimal number, digits, rest) := by
  have hcomma : Spirit.EndsDigits (44 :: (digits ++ rest)) := by
    intro byte hbyte
    cases hbyte
    decide
  obtain ⟨htake, hdrop⟩ := Spirit.takeWhile_digits (isDigit_decimal number) hcomma
  obtain ⟨hdigits, hafter⟩ := Spirit.takeWhile_digits h hrest.1
  simp only [readCoords, htake, hdrop, List.head?_cons, List.tail_cons, if_true,
    if_neg (decimal_ne_nil number), hdigits, hafter]

theorem toString_natCast (number : Nat) : toString (number : Int) = Archive.decimal number :=
  if_neg (Int.not_lt.2 (Int.natCast_nonneg number))

/-- **Coordinates** are read back. -/
theorem readCoords_coords (hstart : start + 1 < 2 ^ 31) (hlength : length < 2 ^ 31)
    (hrest : EndsCoords rest) : ∃ digits : Bytes × Bytes,
      readCoords (coords start length ++ rest) = some (digits.1, digits.2, rest) ∧
        fromCoords digits = ((start : Int), (length : Int)) := by
  have hnext : Hostlist.atoi (Archive.decimal (start + 1)) - 1 = start := by
    rw [atoi_decimal hstart]
    omega
  have hshow : toString ((start : Int) + 1) = Archive.decimal (start + 1) :=
    toString_natCast (start + 1)
  unfold coords
  by_cases hzero : length = 0
  · refine ⟨(Archive.decimal start, [48]), ?_, ?_⟩
    · rw [if_pos (by omega), toString_natCast, List.append_assoc]
      refine readCoords_comma (fun digit hdigit => ?_) hrest
      rw [List.mem_singleton.1 hdigit]
      rfl
    · rw [fromCoords, if_neg (List.cons_ne_nil _ _), if_pos rfl, atoi_decimal (by omega), hzero]
      rfl
  · by_cases hone : length = 1
    · refine ⟨(Archive.decimal (start + 1), []), ?_, ?_⟩
      · rw [if_neg (by omega), if_pos (by omega), hshow]
        exact readCoords_decimal hrest
      · rw [fromCoords, if_pos rfl, hnext, hone]
        rfl
    · refine ⟨(Archive.decimal (start + 1), Archive.decimal length), ?_, ?_⟩
      · rw [if_neg (by omega), if_neg (by omega), hshow, toString_natCast, List.append_assoc,
          List.cons_append]
        exact readCoords_comma (isDigit_decimal length) hrest
      · have hlong : Archive.decimal length ≠ [48] := by
          intro heq
          have hvalue := atoi_decimal hlength
          rw [heq] at hvalue
          have hatoi : Hostlist.atoi [48] = 0 := by decide
          omega
        rw [fromCoords, if_neg (decimal_ne_nil length), if_neg hlong, hnext, atoi_decimal hlength]

end Numbers

/-! ## Lines -/

/-- An `int` holds the numbers of the patch, and what is written for them. -/
structure Patch.Printable (patch : Patch) : Prop where
  start1 : 0 ≤ patch.start1 ∧ patch.start1 + 1 < 2 ^ 31
  start2 : 0 ≤ patch.start2 ∧ patch.start2 + 1 < 2 ^ 31
  length1 : 0 ≤ patch.length1 ∧ patch.length1 < 2 ^ 31
  length2 : 0 ≤ patch.length2 ∧ patch.length2 < 2 ^ 31

/-- The diff without the characters that are not ASCII. -/
def plainDiff (diff : Diff) : Diff := { diff with text := diff.text.filter (· < 128) }

/-- The patch with plain diffs. -/
def plainPatch (patch : Patch) : Patch := { patch with diffs := patch.diffs.map plainDiff }

section Lines

variable {line rest text : Bytes} {patch : Patch}

theorem skip_append (pattern rest : Bytes) : skip pattern (pattern ++ rest) = some rest := by
  rw [skip, if_pos (List.prefix_append _ _), List.drop_left]

/-- **The head of a patch** is read back. -/
theorem readHead_headLine (h : patch.Printable) :
    readHead (headLine patch) = .ok { patch with diffs := [] } := by
  obtain ⟨start1, hstart1⟩ := Int.eq_ofNat_of_zero_le h.start1.1
  obtain ⟨start2, hstart2⟩ := Int.eq_ofNat_of_zero_le h.start2.1
  obtain ⟨length1, hlength1⟩ := Int.eq_ofNat_of_zero_le h.length1.1
  obtain ⟨length2, hlength2⟩ := Int.eq_ofNat_of_zero_le h.length2.1
  have hlimit1 := h.start1.2
  have hlimit2 := h.start2.2
  have hlimit3 := h.length1.2
  have hlimit4 := h.length2.2
  obtain ⟨digits2, hread2, hcoords2⟩ := @readCoords_coords start2 length2 (ascii " @@") (by omega)
    (by omega) (endsCoords_blank _)
  obtain ⟨digits1, hread1, hcoords1⟩ := @readCoords_coords start1 length1
    (ascii " +" ++ (coords start2 length2 ++ ascii " @@")) (by omega) (by omega)
    (endsCoords_blank _)
  have hmatch : matchHead (headLine patch) = some (digits1, digits2) := by
    rw [headLine, hstart1, hstart2, hlength1, hlength2]
    simp only [List.append_assoc]
    rw [matchHead, skip_append]
    simp only [Option.bind_eq_bind, Option.bind_some, hread1, skip_append, hread2, if_true]
  rw [readHead, hmatch]
  simp only [hcoords1, hcoords2, ← hstart1, ← hstart2, ← hlength1, ← hlength2]
  rfl

/-- All lines begin inside of the text. -/
theorem linesBefore_linesOf (text : Bytes) :
    linesBefore text.length (linesOf text) = linesOf text := by
  have hlines : ∀ (lines : List Bytes) (position : Int), (∀ line ∈ lines, line ≠ []) →
      lines.flatten.length ≤ position → linesBefore position lines = lines := by
    intro lines
    induction lines with
    | nil => exact fun _ _ _ => rfl
    | cons line lines ih =>
        intro position hnonempty hlength
        obtain ⟨hline, hrest⟩ := List.forall_mem_cons.1 hnonempty
        have hpos := List.length_pos_of_ne_nil hline
        rw [List.flatten_cons, List.length_append] at hlength
        rw [linesBefore, if_pos (by omega), ih _ hrest (by omega)]
  refine hlines _ _ (fun line hline => ?_) ?_
  · exact linesOf_ne_nil text line hline
  · rw [flatten_linesOf]

/-- The head of a patch is short. -/
theorem length_headLine_le {patch : Patch} (h : patch.Printable) :
    (headLine patch).length ≤ 51 := by
  have hdecimal : ∀ number : Int, 0 ≤ number → number < 2 ^ 31 →
      (toString number).length ≤ 10 := by
    intro number hpos hlimit
    rw [toString, if_neg (Int.not_lt.2 hpos), Archive.decimal]
    split
    · exact Nat.one_le_ofNat
    · rw [List.length_map, List.length_reverse, Nat.digits_length_le_iff (by decide)]
      omega
  have hcoords : ∀ start length : Int, (0 ≤ start ∧ start + 1 < 2 ^ 31) →
      (0 ≤ length ∧ length < 2 ^ 31) → (coords start length).length ≤ 21 := by
    intro start length hstart hlength
    have hfirst := hdecimal start hstart.1 (by omega)
    have hnext := hdecimal (start + 1) (by omega) hstart.2
    have hlong := hdecimal length hlength.1 hlength.2
    have hnone : (ascii ",0").length = 2 := rfl
    unfold coords
    split
    · rw [List.length_append]
      omega
    · split
      · omega
      · rw [List.length_append, List.length_cons]
        omega
  have hfirst := hcoords _ _ h.start1 h.length1
  have hsecond := hcoords _ _ h.start2 h.length2
  have hfront : (ascii "@@ -").length = 4 := rfl
  have hmiddle : (ascii " +").length = 2 := rfl
  have hback : (ascii " @@").length = 3 := rfl
  simp only [headLine, List.length_append]
  omega

/-- The first line of a text. -/
theorem lineTokens_cons (h : 10 ∉ line) (rest : Bytes) :
    lineTokens (linesOf (line ++ 10 :: rest)) = line :: lineTokens (linesOf rest) := by
  have hlines : linesOf (line ++ 10 :: rest) = (line ++ [10]) :: linesOf rest := by
    induction line with
    | nil => rfl
    | cons char line ih =>
        rw [List.mem_cons, not_or] at h
        rw [List.cons_append, linesOf, if_neg fun heq => h.1 heq.symm, ih h.2]
        rfl
  have htoken : (line ++ [10]).takeWhile (· ≠ 10) = line := by
    rw [List.takeWhile_append_of_pos fun char hchar => by
      rw [decide_eq_true_eq]
      rintro rfl
      exact h hchar]
    simp
  rw [lineTokens, hlines, List.map_cons, htoken]
  rfl

/-- No line ends inside of what is written for a byte. -/
theorem newline_not_mem_escape (byte : UInt8) : 10 ∉ escape byte := by
  obtain ⟨hhigh, hlow, -⟩ := halves_spec byte
  rw [escape]
  split
  · rename_i hsafe
    rw [List.mem_singleton]
    exact (isSafe_spec hsafe).2.2.symm
  · simp only [List.mem_cons, List.not_mem_nil, or_false, not_or]
    exact ⟨by decide, (hexChar_spec hhigh).2.symm, (hexChar_spec hlow).2.symm⟩

/-- No line ends inside of what is written for a text. -/
theorem newline_not_mem_escaped (text : Bytes) : 10 ∉ escaped text := by
  intro hmem
  obtain ⟨char, -, hchar⟩ := List.mem_flatMap.1 hmem
  obtain ⟨byte, -, hbyte⟩ := List.mem_flatMap.1 hchar
  exact newline_not_mem_escape byte hbyte

/-- The line of a diff, without its end. -/
def escapedLine (diff : Diff) : Bytes := sign diff.operation :: escaped diff.text

/-- What is written for patches. -/
def escapedPatches (patches : List Patch) : Bytes :=
  patches.flatMap fun patch =>
    headLine patch ++ 10 :: patch.diffs.flatMap fun diff => escapedLine diff ++ [10]

/-- An `int` holds the number of characters that each text is encoded in. -/
def FitsInt (patches : List Patch) : Prop :=
  ∀ patch ∈ patches, ∀ diff ∈ patch.diffs, encodedLength diff.text < 2 ^ 31

/-- A list of values is computed if each of them is. -/
theorem mapM_eq_ok_iff {α β ε : Type} {compute : α → Except ε β} {Good : α → Prop} {value : α → β}
    (h : ∀ item result, compute item = .ok result ↔ Good item ∧ result = value item)
    (items : List α) (results : List β) :
    items.mapM compute = .ok results ↔ (∀ item ∈ items, Good item) ∧ results = items.map value := by
  induction items generalizing results with
  | nil =>
      rw [List.mapM_nil]
      exact ⟨fun heq => ⟨fun _ hmem => absurd hmem List.not_mem_nil, (Except.ok.inj heq).symm⟩,
        fun heq => by rw [heq.2]; rfl⟩
  | cons item items ih =>
      rw [List.mapM_cons, List.forall_mem_cons, List.map_cons]
      cases hitem : compute item with
      | error fault =>
          refine iff_of_false (fun heq => by cases heq) fun hgood => ?_
          rw [(h item (value item)).2 ⟨hgood.1.1, rfl⟩] at hitem
          cases hitem
      | ok result =>
          obtain ⟨hgood, rfl⟩ := (h item result).1 hitem
          cases hitems : items.mapM compute with
          | error fault =>
              refine iff_of_false (fun heq => by cases heq) fun hall => ?_
              rw [(ih _).2 ⟨hall.1.2, rfl⟩] at hitems
              cases hitems
          | ok rest =>
              obtain ⟨hall, rfl⟩ := (ih rest).1 hitems
              exact ⟨fun heq => ⟨⟨hgood, hall⟩, (Except.ok.inj heq).symm⟩,
                fun heq => by rw [heq.2]; rfl⟩

/-- **`patch_toText`** escapes the texts, or counts beyond an `int`. -/
theorem patchToText_eq_ok_iff {patches : List Patch} :
    patchToText patches = .ok text ↔ FitsInt patches ∧ text = escapedPatches patches := by
  have hline : ∀ (diff : Diff) (line : Bytes), diffLine diff = .ok line ↔
      encodedLength diff.text < 2 ^ 31 ∧ line = escapedLine diff ++ [10] := by
    intro diff line
    have hencoded := @percentEncoded_eq_ok_iff diff.text
    rw [diffLine]
    cases htext : percentEncoded diff.text with
    | error fault =>
        refine iff_of_false (fun heq => by cases heq) fun hgood => ?_
        rw [hencoded.2 ⟨hgood.1, rfl⟩] at htext
        cases htext
    | ok bytes =>
        obtain ⟨hgood, rfl⟩ := hencoded.1 htext
        exact ⟨fun heq => ⟨hgood, (Except.ok.inj heq).symm⟩, fun heq => by rw [heq.2]; rfl⟩
  have hpatch : ∀ (patch : Patch) (text : Bytes), patchText patch = .ok text ↔
      (∀ diff ∈ patch.diffs, encodedLength diff.text < 2 ^ 31) ∧
        text = headLine patch ++ 10 :: patch.diffs.flatMap fun diff => escapedLine diff ++ [10] := by
    intro patch text
    have hlines := mapM_eq_ok_iff hline patch.diffs
    rw [patchText]
    cases hdiffs : patch.diffs.mapM diffLine with
    | error fault =>
        refine iff_of_false (fun heq => by cases heq) fun hgood => ?_
        rw [(hlines _).2 ⟨hgood.1, rfl⟩] at hdiffs
        cases hdiffs
    | ok lines =>
        obtain ⟨hgood, rfl⟩ := (hlines lines).1 hdiffs
        exact ⟨fun heq => ⟨hgood, (Except.ok.inj heq).symm⟩, fun heq => by rw [heq.2]; rfl⟩
  have htexts := mapM_eq_ok_iff hpatch patches
  rw [patchToText]
  cases hpatches : patches.mapM patchText with
  | error fault =>
      refine iff_of_false (fun heq => by cases heq) fun hgood => ?_
      rw [(htexts _).2 ⟨hgood.1, rfl⟩] at hpatches
      cases hpatches
  | ok texts =>
      obtain ⟨hgood, rfl⟩ := (htexts texts).1 hpatches
      exact ⟨fun heq => ⟨hgood, (Except.ok.inj heq).symm⟩, fun heq => by rw [heq.2]; rfl⟩

theorem newline_not_mem_escapedLine (diff : Diff) : 10 ∉ escapedLine diff := by
  rw [escapedLine, List.mem_cons, not_or]
  refine ⟨?_, newline_not_mem_escaped _⟩
  cases diff.operation <;> decide

/-- What a head holds besides digits. -/
theorem not_mem_headLine (patch : Patch) {char : UInt8} (hdigit : isDigit char = false)
    (hother : char ∉ ascii "@@ -0, +") : char ∉ headLine patch := by
  have hliteral : ∀ {literal : Bytes}, literal ⊆ ascii "@@ -0, +" → char ∉ literal :=
    fun hsubset hmem => hother (hsubset hmem)
  have hdecimal : ∀ number, char ∉ Archive.decimal number := by
    intro number hmem
    rw [isDigit_decimal number char hmem] at hdigit
    cases hdigit
  have hstring : ∀ number, char ∉ toString number := by
    intro number
    unfold toString
    split
    · rw [← List.singleton_append, List.mem_append, not_or]
      exact ⟨hliteral (by decide), hdecimal _⟩
    · exact hdecimal _
  have hcoords : ∀ start length, char ∉ coords start length := by
    intro start length
    unfold coords
    split
    · rw [List.mem_append, not_or]
      exact ⟨hstring _, hliteral (by decide)⟩
    · split
      · exact hstring _
      · rw [← List.singleton_append, List.mem_append, List.mem_append, not_or, not_or]
        exact ⟨hstring _, hliteral (by decide), hstring _⟩
  simp only [headLine, List.mem_append, not_or]
  exact ⟨⟨⟨⟨hliteral (by decide), hcoords _ _⟩, hliteral (by decide)⟩, hcoords _ _⟩,
    hliteral (by decide)⟩

/-- The lines of patches. -/
theorem lineTokens_escapedPatches (patches : List Patch) :
    lineTokens (linesOf (escapedPatches patches)) =
      patches.flatMap fun patch => headLine patch :: patch.diffs.map escapedLine := by
  have hdiffs : ∀ (diffs : Diffs) (rest : Bytes),
      lineTokens (linesOf ((diffs.flatMap fun diff => escapedLine diff ++ [10]) ++ rest)) =
        diffs.map escapedLine ++ lineTokens (linesOf rest) := by
    intro diffs rest
    induction diffs with
    | nil => rfl
    | cons diff diffs ih =>
        rw [List.flatMap_cons, List.append_assoc, List.append_assoc, List.singleton_append,
          lineTokens_cons (newline_not_mem_escapedLine diff), ih]
        rfl
  induction patches with
  | nil => rfl
  | cons patch patches ih =>
      have htext : escapedPatches (patch :: patches) = headLine patch ++ 10 ::
          ((patch.diffs.flatMap fun diff => escapedLine diff ++ [10]) ++
            escapedPatches patches) := by
        rw [escapedPatches, List.flatMap_cons, List.append_assoc, List.cons_append]
        rfl
      rw [htext, lineTokens_cons (not_mem_headLine patch (by decide) (by decide)), hdiffs, ih]
      rfl

/-- **The line of a diff** is read back without the characters that are not ASCII. -/
theorem readLine_escapedLine (done : List Patch) (patch : Patch) (diff : Diff) :
    readLine (done, some patch) (escapedLine diff) =
      .ok (done, some { patch with diffs := patch.diffs ++ [plainDiff diff] }) := by
  cases diff with
  | mk operation text =>
    rw [escapedLine, readLine, percentDecode_escaped]
    cases operation <;> rfl

/-- **The head of a patch** closes the one before it. -/
theorem readLine_headLine (h : patch.Printable) (state : List Patch × Option Patch) :
    readLine state (headLine patch) =
      .ok (state.1 ++ state.2.toList, some { patch with diffs := [] }) := by
  obtain ⟨text, htext⟩ : ∃ text, headLine patch = 64 :: text := ⟨_, rfl⟩
  have hread := readHead_headLine h
  have hescape : 37 ∉ headLine patch := not_mem_headLine patch (by decide) (by decide)
  rw [htext] at hread hescape
  rw [htext, readLine]
  obtain ⟨done, unfinished⟩ := state
  cases unfinished with
  | none =>
      simp only [hread, bind, Except.bind, Option.toList_none, List.append_nil]
      rfl
  | some unfinished =>
      -- the line is decoded before its sign is looked at
      have hdecode : percentDecode text = .ok (text.flatMap decodeChar) := by
        rw [percentDecode, unescape_of_not_mem fun hmem => hescape (List.mem_cons_of_mem _ hmem)]
        rfl
      simp only [hdecode, hread, bind, Except.bind]
      rfl

/-- The lines of diffs fill the open patch. -/
theorem foldlM_escapedLine (done : List Patch) (patch : Patch) (diffs : Diffs) :
    (diffs.map escapedLine).foldlM readLine (done, some patch) =
      .ok (done, some { patch with diffs := patch.diffs ++ diffs.map plainDiff }) := by
  induction diffs generalizing patch with
  | nil =>
      rw [List.map_nil, List.map_nil, List.append_nil]
      rfl
  | cons diff diffs ih =>
      rw [List.map_cons, List.foldlM_cons, readLine_escapedLine]
      refine (ih _).trans ?_
      rw [List.map_cons, List.append_assoc]
      rfl

/-- **The lines of patches** are read back. -/
theorem foldlM_readLine {patches : List Patch} (h : ∀ patch ∈ patches, patch.Printable)
    (state : List Patch × Option Patch) : ∃ last,
      (lineTokens (linesOf (escapedPatches patches))).foldlM readLine state = .ok last ∧
        last.1 ++ last.2.toList = state.1 ++ state.2.toList ++ patches.map plainPatch := by
  rw [lineTokens_escapedPatches]
  induction patches generalizing state with
  | nil => exact ⟨state, rfl, (List.append_nil _).symm⟩
  | cons patch patches ih =>
      obtain ⟨hpatch, hrest⟩ := List.forall_mem_cons.1 h
      obtain ⟨last, hfold, hlast⟩ := ih hrest
        (state.1 ++ state.2.toList, some { patch with diffs := patch.diffs.map plainDiff })
      refine ⟨last, ?_, ?_⟩
      · rw [List.flatMap_cons, List.cons_append, List.foldlM_cons, readLine_headLine hpatch]
        show (patch.diffs.map escapedLine ++ _).foldlM readLine _ = _
        rw [List.foldlM_append, foldlM_escapedLine, List.nil_append]
        exact hfold
      · rw [hlast, List.map_cons, Option.toList_some, List.append_assoc]
        rfl

end Lines

/-- **Round trip of patches.** What `patch_toText` writes, `patch_fromText` reads without an
exception if an `int` holds its length: the same patches, but in the texts of the diffs only what is
ASCII. -/
theorem patchFromText_patchToText {patches : List Patch} {text : Bytes}
    (h : ∀ patch ∈ patches, patch.Printable) (htext : patchToText patches = .ok text)
    (hlength : text.length < 2 ^ 31) : patchFromText text = .ok (patches.map plainPatch) := by
  obtain ⟨-, rfl⟩ := patchToText_eq_ok_iff.1 htext
  obtain ⟨last, hfold, hlast⟩ := foldlM_readLine h ([], none)
  have hint : Int.bmod (escapedPatches patches).length (2 ^ 32) =
      (escapedPatches patches).length := Int.bmod_eq_of_le (by omega) (by omega)
  rw [patchFromText]
  simp only [hint, linesBefore_linesOf, hfold]
  exact congrArg Except.ok hlast

/-- The numbers of a patch for texts that are not huge fit into an `int`. -/
theorem Patch.Bounded.printable {patch : Patch} {size : Int} (h : patch.Bounded size)
    (hsize : size + 1 < 2 ^ 31) : patch.Printable := by
  obtain ⟨hstart1, hstart2, hlength1, hlength2, -⟩ := h
  refine ⟨?_, ?_, ?_, ?_⟩ <;> omega

/-- So do the numbers of characters that short texts are encoded in. -/
theorem fitsInt_of_bounded {patches : List Patch} {size : Nat}
    (h : ∀ patch ∈ patches, patch.Bounded size) (hsize : 12 * size < 2 ^ 31) :
    FitsInt patches := by
  intro patch hpatch diff hdiff
  have htext := (h patch hpatch).texts diff hdiff
  have hlength := (encodedLength_spec diff.text).1
  omega

/-- Patches are plain exactly if their diffs are. -/
theorem map_plainPatch_eq_iff (patches : List Patch) : patches.map plainPatch = patches ↔
    ∀ patch ∈ patches, ∀ diff ∈ patch.diffs, ∀ char ∈ diff.text, char < 128 := by
  have hdiff : ∀ diff : Diff, plainDiff diff = diff ↔ ∀ char ∈ diff.text, char < 128 := by
    intro diff
    have htext : plainDiff diff = diff ↔ diff.text.filter (· < 128) = diff.text :=
      ⟨fun h => congrArg Edit.text h, fun h => by rw [plainDiff, h]⟩
    rw [htext, List.filter_eq_self]
    simp only [decide_eq_true_eq]
  have hmap : ∀ {α : Type} {f : α → α} {items : List α},
      items.map f = items ↔ ∀ item ∈ items, f item = item := by
    intro α f items
    have hinj := @List.map_inj_left _ _ items f id
    rwa [List.map_id] at hinj
  rw [hmap]
  refine forall₂_congr fun patch _ => ?_
  have hdiffs : plainPatch patch = patch ↔ patch.diffs.map plainDiff = patch.diffs :=
    ⟨fun h => congrArg Patch.diffs h, fun h => by rw [plainPatch, h]⟩
  rw [hdiffs, hmap]
  exact forall₂_congr fun diff _ => hdiff diff

/-- **What `patch_make` has made is read back.** For every two texts that are not huge,
`patch_toText` writes a text for their patches. If an `int` holds its length, `patch_fromText` reads
it without an exception. The patches that it reads are the same exactly if all characters in the
diffs are ASCII; all others are lost. -/
theorem patchMake_reads_back (steps : Nat) (text1 text2 : Bytes) (clock : Clock)
    (hsteps : text1.length + text2.length + 1 < steps)
    (hlength : 12 * (text1.length + text2.length) < 2 ^ 31) :
    (∃ patches last text, (patchMake steps text1 text2).run clock = .ok patches last ∧
      patchToText patches = .ok text ∧
      (text.length < 2 ^ 31 → patchFromText text = .ok (patches.map plainPatch) ∧
        (patchFromText text = .ok patches ↔
          ∀ patch ∈ patches, ∀ diff ∈ patch.diffs, ∀ char ∈ diff.text, char < 128))) ∨
    ∃ last, (patchMake steps text1 text2).run clock = .error .outside last ∧
      125 < text1.count 10 + text2.count 10 := by
  rcases patchMake_settles steps text1 text2 hsteps (by omega) clock with
    ⟨patches, last, hrun, diffs, rfl, hold, hpatches⟩ | ⟨stop, last, hrun, -, rfl, hmany⟩
  · obtain ⟨made, hmade, hbounded⟩ := makePatches_bounded hold.symm
    obtain rfl : made = patches := Except.ok.inj (hmade.symm.trans hpatches)
    have htext := patchToText_eq_ok_iff.2 ⟨fitsInt_of_bounded hbounded hlength, rfl⟩
    refine Or.inl ⟨made, last, _, hrun, htext, fun hint => ?_⟩
    have hread := patchFromText_patchToText
      (fun patch hpatch => (hbounded patch hpatch).printable (by omega)) htext hint
    refine ⟨hread, ?_⟩
    rw [hread, Except.ok.injEq]
    exact map_plainPatch_eq_iff made
  · exact Or.inr ⟨last, hrun, hmany⟩

theorem patchMake_reads_back_small :
    (∃ patches last text, (patchMake 8 [97, 195, 164] [98, 100]).run none = .ok patches last ∧
      patchToText patches = .ok text ∧
      (text.length < 2 ^ 31 → patchFromText text = .ok (patches.map plainPatch) ∧
        (patchFromText text = .ok patches ↔
          ∀ patch ∈ patches, ∀ diff ∈ patch.diffs, ∀ char ∈ diff.text, char < 128))) ∨
    ∃ last, (patchMake 8 [97, 195, 164] [98, 100]).run none = .error .outside last ∧
      125 < List.count 10 [97, 195, 164] + List.count 10 [98, 100] :=
  patchMake_reads_back 8 [97, 195, 164] [98, 100] none (by decide) (by decide)

end AnarchNet.DiffMatchPatch
