import AnarchNet.Db
import Mathlib.Data.Nat.Digits.Defs
import Mathlib.Tactic.NormNum

/-!
# A text archive of objects

Objects written in the manner of the text archive that the daemon uses: numbers in decimal, texts
behind their length, a blank after each item. Reading gives back what was written, so this is one
library that the assumption on archives covers.
-/

namespace AnarchNet.Archive

open FileSystem Db

/-- The decimal digits of a number. -/
def decimal (number : Nat) : Bytes :=
  if number = 0 then [48]
  else (Nat.digits 10 number).reverse.map fun digit => UInt8.ofNat (48 + digit)

/-- A number and a blank. -/
def writeNumber (number : Nat) : Bytes := decimal number ++ [32]

/-- A text behind its length. -/
def writeText (text : Bytes) : Bytes := writeNumber text.length ++ text ++ [32]

/-- A diff, field by field. -/
def writeDiff (diff : Diff) : Bytes :=
  writeText diff.id ++ writeText diff.snapshot ++ writeText diff.content ++
    writeNumber diff.time ++ writeText diff.prev

/-- An object, field by field; the diffs stand behind their number. -/
def writeObject (object : Object) : Bytes :=
  writeText object.id ++ writeText object.master ++ writeNumber object.diffs.length ++
    object.diffs.flatMap writeDiff ++ writeText object.head

/-- Read a number and its blank. -/
def readNumber (text : Bytes) : Option (Nat × Bytes) :=
  match text.dropWhile (· ≠ 32) with
  | [] => none
  | _ :: rest =>
      some (Nat.ofDigits 10 ((text.takeWhile (· ≠ 32)).reverse.map fun char => char.toNat - 48), rest)

/-- Read a text and its blank. -/
def readText (text : Bytes) : Option (Bytes × Bytes) := do
  let (length, rest) ← readNumber text
  match rest.drop length with
  | [] => none
  | _ :: after => some (rest.take length, after)

/-- Read a diff. -/
def readDiff (text : Bytes) : Option (Diff × Bytes) := do
  let (id, text) ← readText text
  let (snapshot, text) ← readText text
  let (content, text) ← readText text
  let (time, text) ← readNumber text
  let (prev, text) ← readText text
  return ({ id, snapshot, content, time, prev }, text)

/-- Read a number of diffs. -/
def readDiffs : Nat → Bytes → Option (List Diff × Bytes)
  | 0, text => some ([], text)
  | count + 1, text => do
      let (diff, text) ← readDiff text
      let (diffs, text) ← readDiffs count text
      return (diff :: diffs, text)

/-- Read an object. -/
def readObject (text : Bytes) : Option Object := do
  let (id, text) ← readText text
  let (master, text) ← readText text
  let (count, text) ← readNumber text
  let (diffs, text) ← readDiffs count text
  let (head, _) ← readText text
  return { id, master, diffs, head }

/-! ## Reading what was written -/

/-- Digits stand behind the other characters of an archive. -/
theorem le_of_mem_decimal {number : Nat} {char : UInt8} (h : char ∈ decimal number) :
    48 ≤ char.toNat := by
  unfold decimal at h
  split at h
  · rw [List.mem_singleton.1 h]
    decide
  · simp only [List.map_reverse, List.mem_reverse, List.mem_map] at h
    obtain ⟨digit, hdigit, rfl⟩ := h
    have hlt := Nat.digits_lt_base (show 1 < 10 by decide) hdigit
    rw [UInt8.toNat_ofNat']
    omega

/-- A digit is no blank. -/
theorem mem_decimal {number : Nat} {char : UInt8} (h : char ∈ decimal number) : char ≠ 32 := by
  rintro rfl
  exact absurd (le_of_mem_decimal h) (by decide)

/-- The digits of a number have its value. -/
theorem ofDigits_decimal (number : Nat) :
    Nat.ofDigits 10 ((decimal number).reverse.map fun char => char.toNat - 48) = number := by
  unfold decimal
  split
  · rename_i hzero
    simp [hzero]
  · rw [← List.map_reverse, List.reverse_reverse, List.map_map]
    have hdigits : (Nat.digits 10 number).map
        ((fun char : UInt8 => char.toNat - 48) ∘ fun digit => UInt8.ofNat (48 + digit)) =
          Nat.digits 10 number := by
      conv_rhs => rw [← List.map_id (Nat.digits 10 number)]
      refine List.map_congr_left fun digit hdigit => ?_
      have hlt := Nat.digits_lt_base (show 1 < 10 by decide) hdigit
      simp only [Function.comp_apply, UInt8.toNat_ofNat', id_eq]
      omega
    rw [hdigits, Nat.ofDigits_digits]

/-- A number is read back. -/
theorem readNumber_writeNumber (number : Nat) (rest : Bytes) :
    readNumber (writeNumber number ++ rest) = some (number, rest) := by
  have hsplit : ∀ digits : Bytes, (∀ char ∈ digits, char ≠ 32) →
      (digits ++ 32 :: rest).takeWhile (· ≠ 32) = digits ∧
        (digits ++ 32 :: rest).dropWhile (· ≠ 32) = 32 :: rest := by
    intro digits hdigits
    rw [List.takeWhile_append_of_pos (by simpa using hdigits),
      List.dropWhile_append_of_pos (by simpa using hdigits)]
    simp
  obtain ⟨htake, hdrop⟩ := hsplit (decimal number) fun char => mem_decimal
  rw [writeNumber, List.append_assoc, List.singleton_append, readNumber, hdrop, htake,
    ofDigits_decimal]

/-- A text is read back. -/
theorem readText_writeText (text rest : Bytes) :
    readText (writeText text ++ rest) = some (text, rest) := by
  rw [readText, writeText, List.append_assoc, List.append_assoc, readNumber_writeNumber]
  simp

/-- A diff is read back. -/
theorem readDiff_writeDiff (diff : Diff) (rest : Bytes) :
    readDiff (writeDiff diff ++ rest) = some (diff, rest) := by
  simp only [readDiff, writeDiff, List.append_assoc, readText_writeText, readNumber_writeNumber,
    Option.bind_eq_bind, Option.bind_some]
  rfl

/-- The diffs are read back. -/
theorem readDiffs_writeDiffs (diffs : List Diff) (rest : Bytes) :
    readDiffs diffs.length (diffs.flatMap writeDiff ++ rest) = some (diffs, rest) := by
  induction diffs with
  | nil => rfl
  | cons diff diffs ih =>
      simp only [List.length_cons, readDiffs, List.flatMap_cons, List.append_assoc,
        readDiff_writeDiff, ih, Option.bind_eq_bind, Option.bind_some]
      rfl

/-- An object is read back. -/
theorem readObject_writeObject (object : Object) : readObject (writeObject object) = some object := by
  have hhead := readText_writeText object.head []
  rw [List.append_nil] at hhead
  simp only [readObject, writeObject, List.append_assoc, readText_writeText,
    readNumber_writeNumber, readDiffs_writeDiffs, hhead, Option.bind_eq_bind, Option.bind_some]
  rfl

/-- Loading an object overwrites another one, unless the archive is cut. -/
def load (text : Bytes) (target : Object) : Except Object Object :=
  match readObject text with
  | some object => .ok object
  | none => .error target

/-- A stored object is loaded. -/
theorem load_writeObject (object target : Object) :
    load (writeObject object) target = .ok object := by
  rw [load, readObject_writeObject]

/-! ## Lengths -/

@[simp] theorem length_writeNumber (number : Nat) :
    (writeNumber number).length = (decimal number).length + 1 := by
  simp [writeNumber]

@[simp] theorem length_writeText (text : Bytes) :
    (writeText text).length = (decimal text.length).length + text.length + 2 := by
  simp [writeText]
  omega

end AnarchNet.Archive
