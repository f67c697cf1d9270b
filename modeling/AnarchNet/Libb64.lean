import AnarchNet.Lib.Transducer
import AnarchNet.Rpc.Request
import Mathlib.Tactic.IntervalCases

/-!
# The base64 coder

`cencode.c` and `cdecode.c` of libb64, and the loops of `encode.h` and `decode.h` through which the
requests and responses use them. A `char` is a byte, signed where it is compared or used as an
index. An access outside of a table or a buffer stops the program.
-/

namespace AnarchNet.Libb64

open FileSystem Transducer

/-! ## Encoding -/

/-- `base64_encodestep`. -/
inductive EncodeStep where
  | stepA
  | stepB
  | stepC

/-- `base64_encodestate`. -/
structure EncodeState where
  step : EncodeStep
  result : UInt8
  stepcount : Nat

/-- `base64_init_encodestate`. -/
def initEncodeState : EncodeState := { step := .stepA, result := 0, stepcount := 0 }

/-- `CHARS_PER_LINE`. -/
def charsPerLine : Nat := 72

/-- The characters of `base64_encode_value`. -/
def encoding : Bytes := ascii "ABCDEFGHIJKLMNOPQRSTUVWXYZabcdefghijklmnopqrstuvwxyz0123456789+/"

/-- `base64_encode_value`. A negative value is outside of the table. -/
def encodeValue (value : UInt8) : Option UInt8 :=
  if 63 < value.toInt8 then some 61 else encoding[value.toNat]?

/-- One turn of `base64_encode_block`. -/
def encodeByte (state : EncodeState) (fragment : UInt8) : Option (Bytes × EncodeState) :=
  match state.step with
  | .stepA => do
      let code ← encodeValue ((fragment &&& 0xfc) >>> 2)
      return ([code], { state with step := .stepB, result := (fragment &&& 0x03) <<< 4 })
  | .stepB => do
      let code ← encodeValue (state.result ||| (fragment &&& 0xf0) >>> 4)
      return ([code], { state with step := .stepC, result := (fragment &&& 0x0f) <<< 2 })
  | .stepC => do
      let code ← encodeValue (state.result ||| (fragment &&& 0xc0) >>> 6)
      let result := (fragment &&& 0x3f) >>> 0
      let last ← encodeValue result
      -- a full line is ended
      if state.stepcount + 1 = charsPerLine / 4 then
        return ([code, last, 10], { step := .stepA, result := result, stepcount := 0 })
      else
        return ([code, last],
          { step := .stepA, result := result, stepcount := state.stepcount + 1 })

/-- `base64_encode_block`. -/
def encodeBlock : Transducer EncodeState UInt8 UInt8 where
  step := encodeByte

/-- `base64_encode_blockend`. -/
def encodeBlockend (state : EncodeState) : Option Bytes :=
  match state.step with
  | .stepA => some [10]
  | .stepB => (encodeValue state.result).map fun code => [code, 61, 61, 10]
  | .stepC => (encodeValue state.result).map fun code => [code, 61, 10]

/-- `encoder::encode` with a buffer for so many characters. -/
def encode (size : Nat) (text : Bytes) : Option Bytes := do
  let (code, state) ← encodeBlock.stream size (2 * size) initEncodeState text
  let last ← encodeBlockend state
  if 2 * size < last.length then none else return code ++ last

/-! ## Decoding -/

/-- `base64_decodestep`. -/
inductive DecodeStep where
  | stepA
  | stepB
  | stepC
  | stepD

/-- `base64_decodestate`. -/
structure DecodeState where
  step : DecodeStep
  plainchar : UInt8

/-- `base64_init_decodestate`. -/
def initDecodeState : DecodeState := { step := .stepA, plainchar := 0 }

/-- The values of `base64_decode_value`, from the character `+` on. -/
def decoding : List Int8 :=
  [62, -1, -1, -1, 63, 52, 53, 54, 55, 56, 57, 58, 59, 60, 61, -1, -1, -1, -2, -1, -1, -1, 0, 1, 2,
    3, 4, 5, 6, 7, 8, 9, 10, 11, 12, 13, 14, 15, 16, 17, 18, 19, 20, 21, 22, 23, 24, 25, -1, -1, -1,
    -1, -1, -1, 26, 27, 28, 29, 30, 31, 32, 33, 34, 35, 36, 37, 38, 39, 40, 41, 42, 43, 44, 45, 46,
    47, 48, 49, 50, 51]

/-- `base64_decode_value`. The size of the table passes as an index. -/
def decodeValue (value : UInt8) : Option Int8 :=
  let index := (value - 43).toInt8
  if index < 0 ∨ Int8.ofNat decoding.length < index then some (-1)
  else decoding[index.toNatClampNeg]?

/-- What `base64_decode_block` does with a fragment. -/
def decodeFragment (state : DecodeState) (fragment : UInt8) : Bytes × DecodeState :=
  match state.step with
  | .stepA => ([], { step := .stepB, plainchar := (fragment &&& 0x3f) <<< 2 })
  | .stepB => ([state.plainchar ||| (fragment &&& 0x30) >>> 4],
      { step := .stepC, plainchar := (fragment &&& 0x0f) <<< 4 })
  | .stepC => ([state.plainchar ||| (fragment &&& 0x3c) >>> 2],
      { step := .stepD, plainchar := (fragment &&& 0x03) <<< 6 })
  -- the character behind the one that is complete is overwritten before it is used
  | .stepD => ([state.plainchar ||| (fragment &&& 0x3f)], { state with step := .stepA })

/-- One turn of `base64_decode_block`. -/
def decodeByte (state : DecodeState) (code : UInt8) : Option (Bytes × DecodeState) := do
  let fragment ← decodeValue code
  if fragment < 0 then return ([], state) else return decodeFragment state fragment.toUInt8

/-- `base64_decode_block`. -/
def decodeBlock : Transducer DecodeState UInt8 UInt8 where
  step := decodeByte

/-- `decoder::decode` with a buffer for so many characters. The character behind those that are
complete is accessed as well. -/
def decode (size : Nat) (code : Bytes) : Option Bytes :=
  if size = 0 then none
  else (decodeBlock.stream size (size - 1) initDecodeState code).map Prod.fst

/-! ## Characters -/

/-- The characters that stand for a value. -/
def isLetter (code : UInt8) : Bool := code ∈ encoding

/-- The codes of the letters. -/
theorem encoding_eq : encoding =
    [65, 66, 67, 68, 69, 70, 71, 72, 73, 74, 75, 76, 77, 78, 79, 80, 81, 82, 83, 84, 85, 86, 87, 88,
      89, 90, 97, 98, 99, 100, 101, 102, 103, 104, 105, 106, 107, 108, 109, 110, 111, 112, 113, 114,
      115, 116, 117, 118, 119, 120, 121, 122, 48, 49, 50, 51, 52, 53, 54, 55, 56, 57, 43, 47] := by
  rfl

/-- A value is written as a letter, which is read as the value. -/
theorem encodeValue_of_lt {value : UInt8} (h : value < 64) :
    ∃ code, encodeValue value = some code ∧ decodeValue code = some value.toInt8 ∧
      ¬ value.toInt8 < 0 := by
  have hall : ∀ index : Fin 64, ∃ code, encodeValue (UInt8.ofNat index) = some code ∧
      decodeValue code = some (UInt8.ofNat index).toInt8 ∧ ¬ (UInt8.ofNat index).toInt8 < 0 := by
    intro index
    refine ⟨encoding.getD index 0, ?_⟩
    revert index
    simp only [encodeValue, encoding_eq]
    decide +kernel
  have hvalue := hall ⟨value.toNat, UInt8.lt_iff_toNat_lt.1 h⟩
  rwa [UInt8.ofNat_toNat] at hvalue

/-- Which characters are read. -/
theorem decodeValue_cases (code : UInt8) :
    (decodeValue code = none ↔ code = 123) ∧
      (isLetter code = false → code ≠ 123 →
        ∃ value, decodeValue code = some value ∧ value < 0) := by
  have hall : ∀ index : Fin 256, (decodeValue (UInt8.ofNat index) = none ↔ (index : Nat) = 123) ∧
      (decodeValue (UInt8.ofNat index)).all fun value =>
        value < 0 ∨ encoding[value.toNatClampNeg]? = some (UInt8.ofNat index) := by
    simp only [encoding_eq]
    decide +kernel
  have hcode := hall ⟨code.toNat, code.toNat_lt⟩
  rw [UInt8.ofNat_toNat] at hcode
  have hbrace : code.toNat = 123 ↔ code = 123 :=
    ⟨fun h => UInt8.toNat_inj.1 h, fun h => congrArg UInt8.toNat h⟩
  refine ⟨hcode.1.trans hbrace, fun hletter hne => ?_⟩
  cases hvalue : decodeValue code with
  | none => exact absurd (hbrace.1 (hcode.1.1 hvalue)) hne
  | some value =>
      have hsign := hcode.2
      rw [hvalue, Option.all_some, decide_eq_true_eq] at hsign
      rcases hsign with hnegative | hencoded
      · exact ⟨value, rfl, hnegative⟩
      · rw [isLetter, decide_eq_false_iff_not] at hletter
        exact absurd (List.mem_of_getElem? hencoded) hletter

/-- A value is written as a character that is decoded as this value. -/
theorem decodeByte_of_lt {value : UInt8} (h : value < 64) :
    ∃ code, encodeValue value = some code ∧
      ∀ state, decodeByte state code = some (decodeFragment state value) := by
  obtain ⟨code, hencode, hdecode, hsign⟩ := encodeValue_of_lt h
  refine ⟨code, hencode, fun state => ?_⟩
  simp [decodeByte, hdecode, hsign]

/-- The end of a line is skipped. -/
theorem decodeByte_newline (state : DecodeState) : decodeByte state 10 = some ([], state) := rfl

/-- So is padding. -/
theorem decodeByte_padding (state : DecodeState) : decodeByte state 61 = some ([], state) := rfl

/-! ## Bits -/

section Bits

variable (x y z : UInt8)

/-- Six bits are less than 64. -/
theorem lt_of_and_eq {value : UInt8} (h : value &&& 0x3f = value) : value < 64 := by
  rw [UInt8.lt_iff_toNat_lt, ← h, UInt8.toNat_and]
  exact Nat.lt_of_le_of_lt Nat.and_le_right (by decide)

theorem first_lt : (x &&& 0xfc) >>> 2 < 64 := by
  apply lt_of_and_eq
  apply UInt8.toBitVec_inj.1
  ext i hi
  interval_cases i <;> simp

theorem second_lt : (x &&& 0x03) <<< 4 ||| (y &&& 0xf0) >>> 4 < 64 := by
  apply lt_of_and_eq
  apply UInt8.toBitVec_inj.1
  ext i hi
  interval_cases i <;> simp

theorem third_lt : (y &&& 0x0f) <<< 2 ||| (z &&& 0xc0) >>> 6 < 64 := by
  apply lt_of_and_eq
  apply UInt8.toBitVec_inj.1
  ext i hi
  interval_cases i <;> simp

theorem fourth_lt : (z &&& 0x3f) >>> 0 < 64 := by
  apply lt_of_and_eq
  apply UInt8.toBitVec_inj.1
  ext i hi
  interval_cases i <;> simp

/-- The first byte from the first two values. -/
theorem first_byte : ((x &&& 0xfc) >>> 2 &&& 0x3f) <<< 2 |||
    (((x &&& 0x03) <<< 4 ||| (y &&& 0xf0) >>> 4) &&& 0x30) >>> 4 = x := by
  apply UInt8.toBitVec_inj.1
  ext i hi
  interval_cases i <;> simp

/-- The second byte from the second and the third value. -/
theorem second_byte : (((x &&& 0x03) <<< 4 ||| (y &&& 0xf0) >>> 4) &&& 0x0f) <<< 4 |||
    (((y &&& 0x0f) <<< 2 ||| (z &&& 0xc0) >>> 6) &&& 0x3c) >>> 2 = y := by
  apply UInt8.toBitVec_inj.1
  ext i hi
  interval_cases i <;> simp

/-- The third byte from the last two values. -/
theorem third_byte : (((y &&& 0x0f) <<< 2 ||| (z &&& 0xc0) >>> 6) &&& 0x03) <<< 6 |||
    ((z &&& 0x3f) >>> 0 &&& 0x3f) = z := by
  apply UInt8.toBitVec_inj.1
  ext i hi
  interval_cases i <;> simp

end Bits

/-! ## Round trip -/

section Machines

variable {encodeState : EncodeState} {decodeState : DecodeState}

/-- Encoding one byte and what follows it. -/
theorem run_encode_cons {byte : UInt8} {code : Bytes} {next : EncodeState}
    (h : encodeByte encodeState byte = some (code, next)) (rest : Bytes) :
    encodeBlock.run encodeState (byte :: rest) =
      (encodeBlock.run next rest).map fun following => (code ++ following.1, following.2) :=
  run_cons h rest

/-- Decoding one character and what follows it. -/
theorem run_decode_cons {code : UInt8} {text : Bytes} {next : DecodeState}
    (h : decodeByte decodeState code = some (text, next)) (rest : Bytes) :
    decodeBlock.run decodeState (code :: rest) =
      (decodeBlock.run next rest).map fun following => (text ++ following.1, following.2) :=
  run_cons h rest

end Machines

/-- Three bytes are written as four characters, and perhaps the end of a line, which are decoded as
these bytes. -/
theorem run_group (x y z result plain : UInt8) (count : Nat) :
    ∃ code last rest after,
      encodeBlock.run ⟨.stepA, result, count⟩ [x, y, z] = some (code, ⟨.stepA, last, rest⟩) ∧
        decodeBlock.run ⟨.stepA, plain⟩ code = some ([x, y, z], ⟨.stepA, after⟩) := by
  obtain ⟨a, ha, hreada⟩ := decodeByte_of_lt (first_lt x)
  obtain ⟨b, hb, hreadb⟩ := decodeByte_of_lt (second_lt x y)
  obtain ⟨c, hc, hreadc⟩ := decodeByte_of_lt (third_lt y z)
  obtain ⟨d, hd, hreadd⟩ := decodeByte_of_lt (fourth_lt z)
  have hread : decodeBlock.run ⟨.stepA, plain⟩ [a, b, c, d] =
      some ([x, y, z], ⟨.stepA, (((y &&& 0x0f) <<< 2 ||| (z &&& 0xc0) >>> 6) &&& 0x03) <<< 6⟩) := by
    rw [run_decode_cons (hreada _), run_decode_cons (hreadb _), run_decode_cons (hreadc _),
      run_decode_cons (hreadd _)]
    simp only [run_nil, Option.map_some, List.nil_append, List.cons_append, first_byte, second_byte,
      third_byte]
  have hwrite : encodeBlock.run ⟨.stepA, result, count⟩ [x, y, z] =
      if count + 1 = charsPerLine / 4 then
        some ([a, b, c, d, 10], ⟨.stepA, (z &&& 0x3f) >>> 0, 0⟩)
      else some ([a, b, c, d], ⟨.stepA, (z &&& 0x3f) >>> 0, count + 1⟩) := by
    have hx : encodeByte ⟨.stepA, result, count⟩ x =
        some ([a], ⟨.stepB, (x &&& 0x03) <<< 4, count⟩) := by
      simp only [encodeByte, ha]
      rfl
    have hy : encodeByte ⟨.stepB, (x &&& 0x03) <<< 4, count⟩ y =
        some ([b], ⟨.stepC, (y &&& 0x0f) <<< 2, count⟩) := by
      simp only [encodeByte, hb]
      rfl
    have hz : encodeByte ⟨.stepC, (y &&& 0x0f) <<< 2, count⟩ z =
        if count + 1 = charsPerLine / 4 then
          some ([c, d, 10], ⟨.stepA, (z &&& 0x3f) >>> 0, 0⟩)
        else some ([c, d], ⟨.stepA, (z &&& 0x3f) >>> 0, count + 1⟩) := by
      simp only [encodeByte, hc, hd]
      rfl
    rw [run_encode_cons hx, run_encode_cons hy]
    by_cases hline : count + 1 = charsPerLine / 4
    · rw [if_pos hline] at hz
      rw [run_encode_cons hz, if_pos hline]
      rfl
    · rw [if_neg hline] at hz
      rw [run_encode_cons hz, if_neg hline]
      rfl
  by_cases hline : count + 1 = charsPerLine / 4
  · rw [if_pos hline] at hwrite
    have hskip : decodeBlock.run ⟨.stepA, plain⟩ ([a, b, c, d] ++ [10]) = some ([x, y, z],
        ⟨.stepA, (((y &&& 0x0f) <<< 2 ||| (z &&& 0xc0) >>> 6) &&& 0x03) <<< 6⟩) := by
      -- the end of the line is skipped
      rw [run_append_of_eq_some hread, run_decode_cons (decodeByte_newline _)]
      rfl
    exact ⟨_, _, _, _, hwrite, hskip⟩
  · rw [if_neg hline] at hwrite
    exact ⟨_, _, _, _, hwrite, hread⟩

/-- A single byte is written as two characters and padding. -/
theorem run_one (x result plain : UInt8) (count : Nat) :
    ∃ code state last after,
      encodeBlock.run ⟨.stepA, result, count⟩ [x] = some (code, state) ∧
        encodeBlockend state = some last ∧
          decodeBlock.run ⟨.stepA, plain⟩ (code ++ last) = some ([x], after) := by
  obtain ⟨a, ha, hreada⟩ := decodeByte_of_lt (first_lt x)
  obtain ⟨b, hb, hreadb⟩ := decodeByte_of_lt (second_lt x 0)
  have hzero : (x &&& 0x03) <<< 4 ||| ((0 : UInt8) &&& 0xf0) >>> 4 = (x &&& 0x03) <<< 4 := by simp
  have hbyte := first_byte x 0
  rw [hzero] at hb hreadb hbyte
  have hx : encodeByte ⟨.stepA, result, count⟩ x =
      some ([a], ⟨.stepB, (x &&& 0x03) <<< 4, count⟩) := by
    simp only [encodeByte, ha]
    rfl
  refine ⟨[a], ⟨.stepB, (x &&& 0x03) <<< 4, count⟩, [b, 61, 61, 10],
    ⟨.stepC, ((x &&& 0x03) <<< 4 &&& 0x0f) <<< 4⟩, ?_, ?_, ?_⟩
  · rw [run_encode_cons hx]
    rfl
  · simp only [encodeBlockend, hb, Option.map_some]
  · rw [List.cons_append, List.nil_append, run_decode_cons (hreada _), run_decode_cons (hreadb _),
      run_decode_cons (decodeByte_padding _), run_decode_cons (decodeByte_padding _),
      run_decode_cons (decodeByte_newline _)]
    simp only [run_nil, Option.map_some, List.nil_append, List.append_nil, hbyte]

/-- Two bytes are written as three characters and padding. -/
theorem run_two (x y result plain : UInt8) (count : Nat) :
    ∃ code state last after,
      encodeBlock.run ⟨.stepA, result, count⟩ [x, y] = some (code, state) ∧
        encodeBlockend state = some last ∧
          decodeBlock.run ⟨.stepA, plain⟩ (code ++ last) = some ([x, y], after) := by
  obtain ⟨a, ha, hreada⟩ := decodeByte_of_lt (first_lt x)
  obtain ⟨b, hb, hreadb⟩ := decodeByte_of_lt (second_lt x y)
  obtain ⟨c, hc, hreadc⟩ := decodeByte_of_lt (third_lt y 0)
  have hzero : (y &&& 0x0f) <<< 2 ||| ((0 : UInt8) &&& 0xc0) >>> 6 = (y &&& 0x0f) <<< 2 := by simp
  have hbyte := second_byte x y 0
  rw [hzero] at hc hreadc hbyte
  have hx : encodeByte ⟨.stepA, result, count⟩ x =
      some ([a], ⟨.stepB, (x &&& 0x03) <<< 4, count⟩) := by
    simp only [encodeByte, ha]
    rfl
  have hy : encodeByte ⟨.stepB, (x &&& 0x03) <<< 4, count⟩ y =
      some ([b], ⟨.stepC, (y &&& 0x0f) <<< 2, count⟩) := by
    simp only [encodeByte, hb]
    rfl
  refine ⟨[a, b], ⟨.stepC, (y &&& 0x0f) <<< 2, count⟩, [c, 61, 10],
    ⟨.stepD, ((y &&& 0x0f) <<< 2 &&& 0x03) <<< 6⟩, ?_, ?_, ?_⟩
  · rw [run_encode_cons hx, run_encode_cons hy]
    rfl
  · simp only [encodeBlockend, hc, Option.map_some]
  · rw [List.cons_append, List.cons_append, List.nil_append, run_decode_cons (hreada _),
      run_decode_cons (hreadb _), run_decode_cons (hreadc _),
      run_decode_cons (decodeByte_padding _), run_decode_cons (decodeByte_newline _)]
    simp only [run_nil, Option.map_some, List.nil_append, List.cons_append, first_byte, hbyte]

/-- What is written for a text, with the end of the block, is decoded as this text. The induction
takes three bytes at a time, and the text ends with none, one or two of them. -/
theorem run_text (text : Bytes) (result plain : UInt8) (count : Nat) :
    ∃ code state last after,
      encodeBlock.run ⟨.stepA, result, count⟩ text = some (code, state) ∧
        encodeBlockend state = some last ∧
          decodeBlock.run ⟨.stepA, plain⟩ (code ++ last) = some (text, after) := by
  induction hlength : text.length using Nat.strongRecOn generalizing text result plain count with
  | ind length ih =>
      subst hlength
      rcases text with - | ⟨x, - | ⟨y, - | ⟨z, rest⟩⟩⟩
      · exact ⟨[], ⟨.stepA, result, count⟩, [10], ⟨.stepA, plain⟩, rfl, rfl, rfl⟩
      · exact run_one x result plain count
      · exact run_two x y result plain count
      · obtain ⟨code, middle, count', plain', hwrite, hread⟩ := run_group x y z result plain count
        obtain ⟨others, state, last, after, hrest, hend, hdecode⟩ :=
          ih rest.length (by simp only [List.length_cons]; omega) rest middle plain' count' rfl
        refine ⟨code ++ others, state, last, after, ?_, hend, ?_⟩
        · rw [show x :: y :: z :: rest = [x, y, z] ++ rest from rfl, run_append_of_eq_some hwrite,
            hrest]
          rfl
        · rw [List.append_assoc, run_append_of_eq_some hread, hdecode]
          rfl

/-! ## Buffers -/

/-- What a step of the encoder has saved for the third byte of a group. -/
def EncodeStep.saved : EncodeStep → Nat
  | .stepA => 0
  | .stepB => 2
  | .stepC => 4

/-- A byte pays for five thirds of a character. -/
theorem encodeByte_pays {state next : EncodeState} {fragment : UInt8} {code : Bytes}
    (h : encodeByte state fragment = some (code, next)) :
    3 * code.length + next.step.saved ≤ 5 + state.step.saved := by
  obtain ⟨step, result, stepcount⟩ := state
  cases step with
  | stepA =>
      simp only [encodeByte, Option.bind_eq_bind, Option.bind_eq_some_iff] at h
      obtain ⟨character, -, heq⟩ := h
      obtain ⟨rfl, rfl⟩ := Prod.mk.inj (Option.some.inj heq)
      simp [EncodeStep.saved]
  | stepB =>
      simp only [encodeByte, Option.bind_eq_bind, Option.bind_eq_some_iff] at h
      obtain ⟨character, -, heq⟩ := h
      obtain ⟨rfl, rfl⟩ := Prod.mk.inj (Option.some.inj heq)
      simp [EncodeStep.saved]
  | stepC =>
      simp only [encodeByte, Option.bind_eq_bind, Option.bind_eq_some_iff] at h
      obtain ⟨character, -, last, -, heq⟩ := h
      split at heq
      · obtain ⟨rfl, rfl⟩ := Prod.mk.inj (Option.some.inj heq)
        simp [EncodeStep.saved]
      · obtain ⟨rfl, rfl⟩ := Prod.mk.inj (Option.some.inj heq)
        simp [EncodeStep.saved]

/-- The characters for a block fit into a buffer of twice its size. -/
theorem encodeBlock_fits {size : Nat} (hsize : 2 ≤ size) (state : EncodeState) (block code : Bytes)
    (last : EncodeState) (hblock : block.length ≤ size)
    (h : encodeBlock.run state block = some (code, last)) : code.length ≤ 2 * size := by
  have hweight := weight_run_le (fun state : EncodeState => state.step.saved)
    (fun _ _ _ _ => encodeByte_pays) h
  have hsaved : state.step.saved ≤ 4 := by cases state.step <;> simp [EncodeStep.saved]
  omega

/-- What a step of the decoder has saved for the bytes of a group. -/
def DecodeStep.saved : DecodeStep → Nat
  | .stepA => 0
  | .stepB => 3
  | .stepC => 2
  | .stepD => 1

/-- A character pays for three quarters of a byte. -/
theorem decodeByte_pays {state next : DecodeState} {character : UInt8} {text : Bytes}
    (h : decodeByte state character = some (text, next)) :
    4 * text.length + next.step.saved ≤ 3 + state.step.saved := by
  simp only [decodeByte, Option.bind_eq_bind, Option.bind_eq_some_iff] at h
  obtain ⟨fragment, -, heq⟩ := h
  split at heq
  · obtain ⟨rfl, rfl⟩ := Prod.mk.inj (Option.some.inj heq)
    simp
  · obtain ⟨step, plainchar⟩ := state
    have hpair := Option.some.inj heq
    cases step <;> obtain ⟨rfl, rfl⟩ := Prod.mk.inj hpair <;> simp [DecodeStep.saved]

/-- The bytes of a block, and one more, fit into a buffer of its size. -/
theorem decodeBlock_fits {size : Nat} (hsize : 4 ≤ size) (state : DecodeState) (block text : Bytes)
    (last : DecodeState) (hblock : block.length ≤ size)
    (h : decodeBlock.run state block = some (text, last)) : text.length ≤ size - 1 := by
  have hweight := weight_run_le (fun state : DecodeState => state.step.saved)
    (fun _ _ _ _ => decodeByte_pays) h
  have hsaved : state.step.saved ≤ 3 := by cases state.step <;> simp [DecodeStep.saved]
  omega

/-- With buffers of two bytes or more, the blocks do not matter for encoding. -/
theorem encode_eq {size : Nat} (hsize : 2 ≤ size) (text : Bytes) :
    encode size text = (encodeBlock.run initEncodeState text).bind fun written =>
      (encodeBlockend written.2).map fun last => written.1 ++ last := by
  rw [encode, stream_eq_run (by omega) (encodeBlock_fits hsize)]
  cases encodeBlock.run initEncodeState text with
  | none => rfl
  | some written =>
      simp only [Option.bind_eq_bind, Option.bind_some]
      cases hend : encodeBlockend written.2 with
      | none => rfl
      | some last =>
          -- the end of the block has at most four characters
          have hlast : last.length ≤ 4 := by
            unfold encodeBlockend at hend
            cases hstep : written.2.step <;> simp only [hstep, Option.map_eq_some_iff] at hend
            · simp [← Option.some.inj hend]
            · obtain ⟨character, -, rfl⟩ := hend
              simp
            · obtain ⟨character, -, rfl⟩ := hend
              simp
          rw [Option.bind_some, if_neg (by omega)]
          rfl

/-- With buffers of four bytes or more, the blocks do not matter for decoding. -/
theorem decode_eq {size : Nat} (hsize : 4 ≤ size) (code : Bytes) :
    decode size code = (decodeBlock.run initDecodeState code).map Prod.fst := by
  rw [decode, if_neg (by omega), stream_eq_run (by omega) (decodeBlock_fits hsize)]

/-- A text is encoded as a code that decodes to it. -/
theorem encode_spec {size : Nat} (hsize : 2 ≤ size) (text : Bytes) : ∃ code after,
    encode size text = some code ∧ decodeBlock.run initDecodeState code = some (text, after) := by
  obtain ⟨code, state, last, after, hrun, hend, hdecode⟩ := run_text text 0 0 0
  refine ⟨code ++ last, after, ?_, hdecode⟩
  rw [encode_eq hsize]
  simp only [initEncodeState, hrun, Option.bind_some, hend, Option.map_some]

/-- **Round trip.** Whatever the sizes of the buffers, from two and four bytes on, a text that is
encoded is decoded as it was, and no access leaves a table or a buffer. The streams keep sizes in an
`int`, so this is about buffers with a double size that fits one. -/
theorem decode_bind_encode {writeSize readSize : Nat} (hwrite : 2 ≤ writeSize)
    (hread : 4 ≤ readSize) (text : Bytes) :
    (encode writeSize text).bind (decode readSize) = some text := by
  obtain ⟨code, after, hencode, hdecode⟩ := encode_spec hwrite text
  rw [hencode, Option.bind_some, decode_eq hread, hdecode]
  rfl

/-- The buffers of two and four bytes. -/
theorem decode_bind_encode_small :
    (encode 2 (ascii "anarchNet")).bind (decode 4) = some (ascii "anarchNet") :=
  decode_bind_encode (by decide) (by decide) _

/-- **What the decoder reads.** It stops exactly at the character behind the end of its table, and
a text without this character is read as if it had its letters only. -/
theorem decode_reads_letters {size : Nat} (hsize : 4 ≤ size) (code : Bytes) :
    (decode size code = none ↔ 123 ∈ code) ∧
      (123 ∉ code → decode size (code.filter isLetter) = decode size code) := by
  rw [decode_eq hsize, decode_eq hsize]
  constructor
  · have hstops : ∀ state character, decodeBlock.step state character = none ↔ character = 123 := by
      intro state character
      show decodeByte state character = none ↔ character = 123
      rw [← (decodeValue_cases character).1, decodeByte]
      cases decodeValue character with
      | none => simp
      | some fragment => by_cases hsign : fragment < 0 <;> simp [hsign]
    have hsome := isSome_run_iff hstops initDecodeState code
    rw [Option.map_eq_none_iff, ← Option.not_isSome_iff_eq_none, hsome]
    simp
  · intro hbrace
    rw [run_filter]
    intro state character hmem hletter
    obtain ⟨fragment, hfragment, hsign⟩ :=
      (decodeValue_cases character).2 hletter fun heq => hbrace (heq ▸ hmem)
    show decodeByte state character = some ([], state)
    simp [decodeByte, hfragment, hsign]

/-- The smallest buffer. -/
theorem decode_reads_letters_small : (decode 4 (ascii "YW5\nh") = none ↔ 123 ∈ ascii "YW5\nh") ∧
    (123 ∉ ascii "YW5\nh" →
      decode 4 ((ascii "YW5\nh").filter isLetter) = decode 4 (ascii "YW5\nh")) :=
  decode_reads_letters (by decide) _

/-! ## The coder of the daemon -/

/-- `BUFFERSIZE`. -/
def buffersize : Nat := 16777216

/-- The coder of `encode_base64` and `decode_base64`. A text that stops the decoder is read as
nothing. -/
def coder : Base64 where
  encode text := (encode buffersize text).getD []
  decode code := (decode buffersize code).getD []
  decode_encode := by
    intro text
    obtain ⟨code, after, hencode, hdecode⟩ := encode_spec (show 2 ≤ buffersize by decide) text
    rw [hencode, Option.getD_some, decode_eq (by decide), hdecode]
    rfl

end AnarchNet.Libb64
