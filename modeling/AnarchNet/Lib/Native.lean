import AnarchNet.Lib.Effect
import Mathlib.Data.List.Basic
import Mathlib.Tactic.NormNum

/-!
# Buffers and numbers of a native program

A native program copies between buffers and stores numbers in types of a fixed width. An access
outside of a buffer, a division by zero, a signed count that overflows and the conversion of a
floating number that an `int` cannot hold have no meaning and stop the program. A number that is cut
to the width of its type has one, and is noted.
-/

namespace Native

open EStateM

/-- Why a native program does not go on. -/
inductive Stop where
  /-- It throws. -/
  | thrown
  /-- It accesses what is outside of a buffer or a vector. -/
  | outside
  /-- It divides by zero, counts beyond a signed type, or converts a floating number that the integer
  type cannot hold. -/
  | range
  /-- It is still running when the steps it was given are used up. -/
  | running
  deriving DecidableEq

/-- What is noted of a run: every number kept its value, and every length fitted its buffer. -/
structure Notes where
  exact : Bool
  fits : Bool
  deriving DecidableEq

/-- The notes at the beginning. -/
def Notes.clean : Notes := { exact := true, fits := true }

/-- A native program. -/
abbrev Program := EStateM Stop Notes

variable {α : Type}

/-- Note whether a number kept its value. -/
def noteExact (kept : Bool) : Program Unit :=
  modify fun notes => { notes with exact := notes.exact && kept }

/-- Note whether a length fits its buffer. -/
def noteFits (inside : Bool) : Program Unit :=
  modify fun notes => { notes with fits := notes.fits && inside }

/-- Store a number in an `int`. -/
def int (number : Int) : Program Int := do
  noteExact (Int.bmod number (2 ^ 32) = number)
  return Int.bmod number (2 ^ 32)

/-- Store a number in a `uint`. -/
def uint (number : Int) : Program Nat := do
  noteExact (number % 2 ^ 32 = number)
  return (number % 2 ^ 32).toNat

/-- The whole quotient of two numbers. -/
def quotient (number divisor : Nat) : Program Nat :=
  if divisor = 0 then throw .range else return number / divisor

/-- Convert a floating number, the value of which is a whole number, to `int`. -/
def floatToInt (number : Nat) : Program Nat :=
  if number < 2 ^ 31 then return number else throw .range

/-- Copy so many elements out of a buffer, beginning at an offset. -/
def copyOut (buffer : List α) (offset : Int) (length : Nat) : Program (List α) :=
  if 0 ≤ offset ∧ offset + length ≤ buffer.length then
    return (buffer.drop offset.toNat).take length
  else throw .outside

/-- Copy elements into a buffer, beginning at an offset. -/
def copyIn (buffer : List α) (offset : Int) (elements : List α) : Program (List α) :=
  if 0 ≤ offset ∧ offset + elements.length ≤ buffer.length then
    return buffer.take offset.toNat ++ elements ++ buffer.drop (offset.toNat + elements.length)
  else throw .outside

section Runs

variable {number : Int} {buffer elements : List α} {offset length : Nat}

/-- A number fits an `int` exactly if its lower 32 bits have its value. -/
theorem bmod_eq_self_iff :
    Int.bmod number (2 ^ 32) = number ↔ -2 ^ 31 ≤ number ∧ number < 2 ^ 31 := by
  rw [Int.bmod_def]
  split <;> omega

/-- A length that fits its buffer changes no note. -/
theorem run_noteFits {inside : Bool} (h : inside = true) (notes : Notes) :
    (noteFits inside).run notes = .ok () notes := by
  simp [noteFits, h]

/-- Storing a number in an `int`. -/
theorem run_int (number : Int) (notes : Notes) : (int number).run notes =
    .ok (Int.bmod number (2 ^ 32))
      { notes with exact := notes.exact && decide (Int.bmod number (2 ^ 32) = number) } := rfl

/-- A number that fits an `int` is stored as it is. -/
theorem run_int_of_fits (h : -2 ^ 31 ≤ number ∧ number < 2 ^ 31) (notes : Notes) :
    (int number).run notes = .ok number notes := by
  rw [run_int, bmod_eq_self_iff.2 h]
  simp

/-- A number that fits a `uint` is stored as it is. -/
theorem run_uint_of_fits {number : Nat} (h : number < 2 ^ 32) (notes : Notes) :
    (uint number).run notes = .ok number notes := by
  have hmod : (number : Int) % 2 ^ 32 = number := by omega
  simp only [uint, run_bind, hmod]
  simp [noteExact]

/-- The quotient of a number by one that is not zero. -/
theorem run_quotient {number divisor : Nat} (h : 0 < divisor) (notes : Notes) :
    (quotient number divisor).run notes = .ok (number / divisor) notes := by
  rw [quotient, if_neg (by omega)]
  rfl

/-- Converting a small whole number. -/
theorem run_floatToInt {number : Nat} (h : number < 2 ^ 31) (notes : Notes) :
    (floatToInt number).run notes = .ok number notes := by
  rw [floatToInt, if_pos h]
  rfl

/-- Converting a large whole number. -/
theorem run_floatToInt_of_le {number : Nat} (h : 2 ^ 31 ≤ number) (notes : Notes) :
    (floatToInt number).run notes = .error .range notes := by
  rw [floatToInt, if_neg (by omega)]
  rfl

/-- Copying out of a buffer succeeds or reaches outside. -/
theorem run_copyOut_cases (buffer : List α) (offset : Int) (length : Nat) (notes : Notes) :
    (∃ elements, (copyOut buffer offset length).run notes = .ok elements notes) ∨
      (copyOut buffer offset length).run notes = .error .outside notes := by
  unfold copyOut
  split
  · exact Or.inl ⟨_, rfl⟩
  · exact Or.inr rfl

/-- Copying into a buffer succeeds or reaches outside. -/
theorem run_copyIn_cases (buffer : List α) (offset : Int) (elements : List α) (notes : Notes) :
    (∃ after, (copyIn buffer offset elements).run notes = .ok after notes) ∨
      (copyIn buffer offset elements).run notes = .error .outside notes := by
  unfold copyIn
  split
  · exact Or.inl ⟨_, rfl⟩
  · exact Or.inr rfl

/-- Copying what lies inside of a buffer. -/
theorem run_copyOut (h : offset + length ≤ buffer.length) (notes : Notes) :
    (copyOut buffer offset length).run notes = .ok ((buffer.drop offset).take length) notes := by
  rw [copyOut, if_pos ⟨by omega, by omega⟩]
  rfl

/-- Copying what reaches over the end of a buffer. -/
theorem run_copyOut_outside (h : buffer.length < offset + length) (notes : Notes) :
    (copyOut buffer offset length).run notes = .error .outside notes := by
  rw [copyOut, if_neg (by omega)]
  rfl

/-- Copying the whole of a buffer. -/
theorem run_copyOut_all (buffer : List α) (notes : Notes) :
    (copyOut buffer 0 buffer.length).run notes = .ok buffer notes := by
  have h : (copyOut buffer (0 : Nat) buffer.length).run notes = _ := run_copyOut (by omega) notes
  rwa [List.drop_zero, List.take_length] at h

/-- Copying to the beginning of a buffer that is long enough. -/
theorem run_copyIn (h : elements.length ≤ buffer.length) (notes : Notes) :
    (copyIn buffer 0 elements).run notes =
      .ok (elements ++ buffer.drop elements.length) notes := by
  rw [copyIn, if_pos ⟨by omega, by omega⟩]
  simp

/-- Copying to the beginning of a buffer that is too short. -/
theorem run_copyIn_outside (h : buffer.length < elements.length) (notes : Notes) :
    (copyIn buffer 0 elements).run notes = .error .outside notes := by
  rw [copyIn, if_neg (by omega)]
  rfl

end Runs

/-! ## What is noted stays noted -/

/-- Notes that were taken later: a number that was cut stays noted. -/
def Notes.Later (before after : Notes) : Prop := after.exact = true → before.exact = true

instance : Std.Refl Notes.Later := ⟨fun _ => id⟩

instance : IsTrans Notes Notes.Later := ⟨fun _ _ _ hfirst hsecond h => hfirst (hsecond h)⟩

/-- Noting whether a number kept its value. -/
theorem preserves_noteExact (kept : Bool) : Preserves Notes.Later (noteExact kept) :=
  fun notes h => (Bool.and_eq_true_iff.mp (show (notes.exact && kept) = true from h)).1

/-- Storing a number. -/
theorem preserves_int (number : Int) : Preserves Notes.Later (int number) :=
  (preserves_noteExact _).bind fun _ => Preserves.pure _

/-- Dividing. -/
theorem preserves_quotient (number divisor : Nat) :
    Preserves Notes.Later (quotient number divisor) :=
  Preserves.ite (fun _ => Preserves.throw _) fun _ => Preserves.pure _

/-- Converting a number. -/
theorem preserves_floatToInt (number : Nat) : Preserves Notes.Later (floatToInt number) :=
  Preserves.ite (fun _ => Preserves.pure _) fun _ => Preserves.throw _

/-- Copying out of a buffer. -/
theorem preserves_copyOut (buffer : List α) (offset : Int) (length : Nat) :
    Preserves Notes.Later (copyOut buffer offset length) :=
  Preserves.ite (fun _ => Preserves.pure _) fun _ => Preserves.throw _

end Native
