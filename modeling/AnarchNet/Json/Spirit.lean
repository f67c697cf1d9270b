import AnarchNet.Json.Document

/-!
# The primitive parsers

Executable parsers for `lex_escape_ch_p`, `strict_real_p`, `int64_p` and `uint64_p` with the
behaviour that their documentation describes, as an instance of the parameter of the grammar.
-/

namespace AnarchNet.Json.Spirit

open FileSystem

/-- `lex_escape_ch_p` after a backslash. Behind an `x` one or two hexadecimal digits have to
follow and name a `char`; any other character is taken alone. The digits of an octal escape are
plain characters too, so they need not be told apart here. -/
def escaped : Bytes → Option Nat
  | [] => none
  | byte :: rest =>
      if byte = 120 ∨ byte = 88 then
        let digits := (rest.take 2).takeWhile isHexDigit
        let number := digits.foldl (fun number digit => number * 16 + hexToNum digit) 0
        if digits ≠ [] ∧ number < 128 then some (digits.length + 1) else none
      else some 1

/-- The text behind an optional sign. -/
def dropSign : Bytes → Bytes
  | [] => []
  | byte :: rest => if byte = 45 ∨ byte = 43 then rest else byte :: rest

/-- `int64_p`. -/
def int64 (text : Bytes) : Option (Int × Bytes) :=
  let digits := (dropSign text).takeWhile isDigit
  let rest := (dropSign text).dropWhile isDigit
  let number := digitsValue digits
  if digits = [] then none
  else if text.head? = some 45 then
    if number ≤ 2 ^ 63 then some (-(number : Int), rest) else none
  else if number < 2 ^ 63 then some ((number : Int), rest) else none

/-- `uint64_p`. -/
def uint64 (text : Bytes) : Option (Nat × Bytes) :=
  let digits := text.takeWhile isDigit
  if digits = [] then none
  else if digitsValue digits < 2 ^ 64 then some (digitsValue digits, text.dropWhile isDigit)
  else none

/-- The text behind the number of an exponent. -/
def behindExponent (text : Bytes) : Option Bytes :=
  if (dropSign text).takeWhile isDigit = [] then none else some ((dropSign text).dropWhile isDigit)

/-- The text behind an optional exponent. -/
def behindOptional : Bytes → Option Bytes
  | [] => some []
  | mark :: rest => if mark = 69 ∨ mark = 101 then behindExponent rest else some (mark :: rest)

/-- The text behind a real number, which has a point or an exponent. -/
def behindReal (text : Bytes) : Option Bytes :=
  let whole := (dropSign text).takeWhile isDigit
  match (dropSign text).dropWhile isDigit with
  | [] => none
  | mark :: rest =>
      if mark = 46 then
        if whole = [] ∧ rest.takeWhile isDigit = [] then none
        else behindOptional (rest.dropWhile isDigit)
      else if whole ≠ [] ∧ (mark = 69 ∨ mark = 101) then behindExponent rest
      else none

/-- `strict_real_p`. -/
def strictReal (text : Bytes) : Option (Bytes × Bytes) :=
  (behindReal text).map fun rest => (text.take (text.length - rest.length), rest)

/-- The text does not start with a digit. -/
def EndsDigits (rest : Bytes) : Prop := ∀ byte ∈ rest.head?, isDigit byte = false

/-- The digits at the front of a text. -/
theorem takeWhile_digits {digits rest : Bytes} (h : ∀ digit ∈ digits, isDigit digit)
    (hrest : EndsDigits rest) :
    (digits ++ rest).takeWhile isDigit = digits ∧ (digits ++ rest).dropWhile isDigit = rest := by
  rw [List.takeWhile_append_of_pos h, List.dropWhile_append_of_pos h]
  cases rest with
  | nil => simp
  | cons byte rest =>
      have hbyte : ¬ isDigit byte = true := by simp [hrest byte rfl]
      rw [List.takeWhile_cons_of_neg hbyte, List.dropWhile_cons_of_neg hbyte]
      simp

/-- A digit is no sign. -/
theorem dropSign_digits {digits : Bytes} (hne : digits ≠ []) (h : ∀ digit ∈ digits, isDigit digit)
    (rest : Bytes) : dropSign (digits ++ rest) = digits ++ rest := by
  cases digits with
  | nil => exact absurd rfl hne
  | cons digit digits =>
      refine if_neg ?_
      rintro (rfl | rfl) <;> exact absurd (h _ List.mem_cons_self) (by decide)

/-- The digits behind an optional minus sign. -/
theorem dropSign_minus {digits : Bytes} (h : WholeDigits digits) (negative : Bool) (rest : Bytes) :
    dropSign ((if negative then [45] else []) ++ (digits ++ rest)) = digits ++ rest := by
  cases negative with
  | true => rfl
  | false => exact dropSign_digits h.1 h.2.1 rest

/-- A digit is not a minus sign. -/
theorem head_digits {digits : Bytes} (h : WholeDigits digits) (rest : Bytes) :
    (digits ++ rest).head? ≠ some 45 := by
  obtain ⟨digit, digits, rfl⟩ := List.exists_cons_of_ne_nil h.1
  intro heq
  rw [List.cons_append, List.head?_cons, Option.some.injEq] at heq
  exact absurd (h.2.1 digit List.mem_cons_self) (by rw [heq]; decide)

/-- A number ends where its digits end. -/
theorem endsDigits_of_endsNumber {rest : Bytes} (h : EndsNumber rest) : EndsDigits rest :=
  fun byte hbyte => (h byte hbyte).1

/-- `int64_p` on an integer literal. -/
theorem int64_int (literal : IntLiteral) {rest : Bytes} (hrest : EndsNumber rest) :
    int64 (literal.text ++ rest) =
      if literal.number < 2 ^ 63 then some (literal.number, rest) else none := by
  obtain ⟨negative, digits, whole, fits⟩ := literal
  have hsign := dropSign_minus whole negative rest
  have hspan := takeWhile_digits whole.2.1 (endsDigits_of_endsNumber hrest)
  simp only [IntLiteral.text, IntLiteral.number, List.append_assoc, int64, hsign, hspan,
    if_neg whole.1]
  cases negative with
  | true =>
      simp only [if_true] at fits ⊢
      have hle : digitsValue digits ≤ 2 ^ 63 := Nat.lt_succ_iff.mp fits
      have hlt : -(digitsValue digits : Int) < 2 ^ 63 := by omega
      rw [if_pos hlt]
      exact (if_pos rfl).trans (if_pos hle)
  | false =>
      simp only [Bool.false_eq_true, if_false, List.nil_append, if_neg (head_digits whole rest)]
      have hiff : (digitsValue digits < 2 ^ 63) ↔ ((digitsValue digits : Int) < 2 ^ 63) := by omega
      by_cases hlt : digitsValue digits < 2 ^ 63
      · rw [if_pos hlt, if_pos (hiff.mp hlt)]
      · rw [if_neg hlt, if_neg (mt hiff.mpr hlt)]

/-- `uint64_p` on an integer literal that is too large for `int64_p`. -/
theorem uint64_int (literal : IntLiteral) {rest : Bytes} (hrest : EndsNumber rest)
    (hlarge : 2 ^ 63 ≤ literal.number) :
    uint64 (literal.text ++ rest) = some (literal.number.toNat, rest) := by
  obtain ⟨negative, digits, whole, fits⟩ := literal
  have hspan := takeWhile_digits whole.2.1 (endsDigits_of_endsNumber hrest)
  cases negative with
  | true =>
      simp only [IntLiteral.number, if_true] at hlarge
      omega
  | false =>
      simp only [Bool.false_eq_true, if_false] at fits
      simp only [IntLiteral.text, IntLiteral.number, Bool.false_eq_true, if_false, List.nil_append,
        uint64, hspan, if_neg whole.1, if_pos fits, Int.toNat_natCast]

/-- The text behind an exponent. -/
theorem behindExponent_text (exponent : Exponent) {rest : Bytes} (hrest : EndsDigits rest) :
    ∃ mark tail, exponent.text ++ rest = mark :: tail ∧ (mark = 69 ∨ mark = 101) ∧
      behindExponent tail = some rest := by
  obtain ⟨upper, sign, digits, nonempty, decimal⟩ := exponent
  have hspan := takeWhile_digits decimal hrest
  have hdigits := dropSign_digits nonempty decimal rest
  refine ⟨_, _, List.cons_append .., by cases upper <;> simp, ?_⟩
  have hsign : dropSign (signText sign ++ digits ++ rest) = digits ++ rest := by
    rcases sign with _ | _ | _
    · exact hdigits
    · rfl
    · rfl
  dsimp only [behindExponent]
  rw [hsign, hspan.1, if_neg nonempty, hspan.2]

/-- The text behind an optional exponent, which no digit starts. -/
theorem behindOptional_text (exponent : Option Exponent) {rest : Bytes} (hrest : EndsNumber rest) :
    EndsDigits (exponent.elim [] Exponent.text ++ rest) ∧
      behindOptional (exponent.elim [] Exponent.text ++ rest) = some rest := by
  cases exponent with
  | none =>
      refine ⟨endsDigits_of_endsNumber hrest, ?_⟩
      cases rest with
      | nil => rfl
      | cons byte rest =>
          obtain ⟨-, -, hupper, hlower⟩ := hrest byte rfl
          exact if_neg (by simp [hupper, hlower])
  | some exponent =>
      obtain ⟨mark, tail, htext, hmark, hbehind⟩ :=
        behindExponent_text exponent (endsDigits_of_endsNumber hrest)
      rw [Option.elim_some, htext]
      refine ⟨?_, (if_pos hmark).trans hbehind⟩
      intro byte hbyte
      rw [List.head?_cons, Option.mem_some_iff] at hbyte
      rcases hmark with hmark | hmark <;> rw [← hbyte, hmark] <;> rfl

/-- The text behind a real literal. -/
theorem behindReal_text (literal : RealLiteral) {rest : Bytes} (hrest : EndsNumber rest) :
    behindReal (literal.text ++ rest) = some rest := by
  obtain ⟨negative, digits, whole, fraction, decimal, exponent, real⟩ := literal
  obtain ⟨hends, hoptional⟩ := behindOptional_text exponent hrest
  simp only [RealLiteral.text, List.append_assoc, behindReal, dropSign_minus whole]
  by_cases hfraction : fraction = []
  · -- without a fraction the exponent has to be there
    obtain ⟨exponent, rfl⟩ := Option.isSome_iff_exists.mp (real.resolve_left (not_not.mpr hfraction))
    obtain ⟨mark, tail, htext, hmark, hbehind⟩ :=
      behindExponent_text exponent (endsDigits_of_endsNumber hrest)
    have hne : mark ≠ 46 := by rcases hmark with rfl | rfl <;> decide
    have hspan := takeWhile_digits whole.2.1 hends
    rw [Option.elim_some, htext] at hspan
    rw [if_pos hfraction, List.nil_append, Option.elim_some, htext, hspan.1, hspan.2]
    simp only [if_neg hne, whole.1, hmark, ne_eq, not_false_eq_true, and_self, if_true, hbehind]
  · have hpoint : EndsDigits (46 :: (fraction ++ (exponent.elim [] Exponent.text ++ rest))) := by
      intro byte hbyte
      rw [List.head?_cons, Option.mem_some_iff] at hbyte
      rw [← hbyte]
      rfl
    have hspan := takeWhile_digits whole.2.1 hpoint
    have hinner := takeWhile_digits decimal hends
    rw [if_neg hfraction, List.cons_append, hspan.1, hspan.2]
    simp only [if_true, hinner, whole.1, false_and, if_false, hoptional]

/-- `strict_real_p` on a real literal. -/
theorem strictReal_real (literal : RealLiteral) {rest : Bytes} (hrest : EndsNumber rest) :
    strictReal (literal.text ++ rest) = some (literal.text, rest) := by
  rw [strictReal, behindReal_text literal hrest, Option.map_some, List.length_append,
    Nat.add_sub_cancel, List.take_left]

/-- `strict_real_p` on an integer literal. -/
theorem strictReal_int (literal : IntLiteral) {rest : Bytes} (hrest : EndsNumber rest) :
    strictReal (literal.text ++ rest) = none := by
  obtain ⟨negative, digits, whole, fits⟩ := literal
  have hspan := takeWhile_digits whole.2.1 (endsDigits_of_endsNumber hrest)
  rw [strictReal, Option.map_eq_none_iff]
  simp only [IntLiteral.text, List.append_assoc, behindReal, dropSign_minus whole, hspan]
  cases rest with
  | nil => rfl
  | cons byte rest =>
      obtain ⟨-, hpoint, hupper, hlower⟩ := hrest byte rfl
      simp [hpoint, hupper, hlower]

/-- A text that does not start as a number has no sign and no digits. -/
theorem no_digits_of_other {text : Bytes}
    (h : ∀ byte ∈ text.head?, startsNumber byte = false) :
    dropSign text = text ∧ text.takeWhile isDigit = [] ∧ text.head? ≠ some 46 := by
  cases text with
  | nil => simp [dropSign]
  | cons byte rest =>
      have hbyte := h byte rfl
      simp only [startsNumber, Bool.or_eq_false_iff, decide_eq_false_iff_not] at hbyte
      obtain ⟨⟨⟨hplus, hminus⟩, hpoint⟩, hdigit⟩ := hbyte
      exact ⟨if_neg (by simp [hplus, hminus]), List.takeWhile_cons_of_neg (by simp [hdigit]),
        by simp [hpoint]⟩

/-- `strict_real_p` on a text that does not start as a number. -/
theorem strictReal_other {text : Bytes} (h : ∀ byte ∈ text.head?, startsNumber byte = false) :
    strictReal text = none := by
  obtain ⟨hsign, hdigits, hpoint⟩ := no_digits_of_other h
  rw [strictReal, Option.map_eq_none_iff, behindReal, hsign]
  simp only [hdigits]
  cases text with
  | nil => rfl
  | cons byte rest =>
      have hdrop : (byte :: rest).dropWhile isDigit = byte :: rest := by
        have happend := List.takeWhile_append_dropWhile (p := isDigit) (l := byte :: rest)
        rwa [hdigits, List.nil_append] at happend
      have hne : byte ≠ 46 := fun heq => hpoint (by rw [heq]; rfl)
      simp [hdrop, hne]

/-- The primitive parsers of Spirit. -/
def primitives : Primitives where
  escaped := escaped
  strictReal := strictReal
  int64 := int64
  uint64 := uint64
  escaped_letter := by
    intro mark rest
    cases mark <;> rfl
  escaped_unicode := fun rest => rfl
  strictReal_real := fun literal _ hrest => strictReal_real literal hrest
  strictReal_int := fun literal _ hrest => strictReal_int literal hrest
  int64_int := fun literal _ hrest => int64_int literal hrest
  uint64_int := fun literal _ hrest hlarge => uint64_int literal hrest hlarge
  strictReal_other := fun _ h => strictReal_other h
  int64_other := by
    intro text h
    obtain ⟨hsign, hdigits, -⟩ := no_digits_of_other h
    rw [int64, hsign, hdigits]
    rfl
  uint64_other := by
    intro text h
    obtain ⟨-, hdigits, -⟩ := no_digits_of_other h
    rw [uint64, hdigits]
    rfl

end AnarchNet.Json.Spirit
