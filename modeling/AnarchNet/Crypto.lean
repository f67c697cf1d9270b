import AnarchNet.Lib.FileCalls
import Mathlib.Data.List.DropRight
import Mathlib.Tactic.Common

/-!
# Hashes, hex texts and the paths made of them

The functions of `crypto.cc` and the two string helpers that both stores share, `hash_to_path`
and `validate_key`. SHA-512 itself comes from a library; it is a parameter that yields 64 bytes.
-/

namespace AnarchNet

open FileSystem

/-- The exceptions that the daemon throws or passes on: its own, those of the file system and of
the standard library, and a text thrown as such. The last one is none: the program need not come
back, since it does something that the language leaves undefined or goes on without end. -/
inductive Exception where
  | fileNotFound
  | filesystemError
  | outOfRange
  | runtimeError
  | message (text : Bytes)
  | undefined
  deriving DecidableEq, Repr

/-- File system calls throw `filesystem_error`. -/
instance : FileFault Exception := ⟨.filesystemError⟩

/-- A storage program: it reads and changes the file system and may throw. -/
abbrev Storage := EStateM Exception World

/-- SHA-512 as the library computes it. -/
structure Sha512 where
  hash : Bytes → Bytes
  length_hash : ∀ inp, (hash inp).length = 64

/-- The assumption on SHA-512: no two of these texts have the same hash. -/
def CollisionFree (sha : Sha512) (texts : List Bytes) : Prop :=
  ∀ left ∈ texts, ∀ right ∈ texts, sha.hash left = sha.hash right → left = right

/-- `CollisionFree` compares finitely many hashes. -/
instance (sha : Sha512) (texts : List Bytes) : Decidable (CollisionFree sha texts) :=
  inferInstanceAs (Decidable (∀ left ∈ texts, ∀ right ∈ texts, _ → _))

/-- The 64 bytes of a digest, written as two numbers. -/
def digest (high low : Nat) : Bytes :=
  (List.range 32).map (fun index => UInt8.ofNat (high >>> (8 * (31 - index)))) ++
    (List.range 32).map (fun index => UInt8.ofNat (low >>> (8 * (31 - index))))

/-- The hash function given by known digests; other texts are padded or cut to 64 bytes. -/
def Sha512.ofDigests (table : List (Bytes × Bytes)) : Sha512 where
  hash inp := ((table.lookup inp).getD inp ++ List.replicate 64 0).take 64
  length_hash inp := by
    rw [List.length_take, List.length_append, List.length_replicate]
    omega

/-- `hexDigits`. -/
def hexDigits : Bytes := [48, 49, 50, 51, 52, 53, 54, 55, 56, 57, 97, 98, 99, 100, 101, 102]

/-- A `char` in an arithmetic expression: it is signed and promoted to 32 bits. -/
def promote (char : UInt8) : BitVec 32 := char.toBitVec.signExtend 32

/-- The two digits that `toHex` pushes for one character. -/
def hexPair (char : UInt8) : Bytes :=
  [hexDigits[((promote char &&& 0xf0#32) >>> 4).toNat]!, hexDigits[(promote char &&& 0x0f#32).toNat]!]

/-- `toHex`: the loop over the characters of the input. -/
def toHex (inp : Bytes) : Bytes := inp.flatMap hexPair

/-- `std::string::insert` of a text at a position; a position past the end throws. -/
def insertAt (text : Bytes) (position : Nat) (piece : Bytes) : Option Bytes :=
  if position ≤ text.length then some (text.take position ++ piece ++ text.drop position) else none

/-- `hash_to_path`. -/
def hashToPath (inp : Bytes) : Option Bytes := do
  let res ← insertAt inp 4 [slash]
  insertAt res 2 [slash]

/-- `validate_key`: a key shorter than 128 bytes is hashed, a longer one is taken as it is. -/
def validateKey (sha : Sha512) (key : Bytes) : Bytes :=
  if key.length < 128 then toHex (sha.hash key) else key

/-- `path::remove_filename`: erase the last element and the slashes before it. -/
def removeFilename (text : Bytes) : Bytes :=
  (text.rdropWhile (· ≠ slash)).rdropWhile (· = slash)

/-! ## Hex texts -/

/-- The sign of a character does not reach the digits. -/
theorem hexPair_eq (char : UInt8) :
    hexPair char = [hexDigits[char.toNat / 16]!, hexDigits[char.toNat % 16]!] := by
  have h : ∀ byte : Fin 256,
      ((((BitVec.ofFin (w := 8) byte).signExtend 32 &&& 0xf0#32) >>> 4).toNat = byte.val / 16 ∧
        ((BitVec.ofFin (w := 8) byte).signExtend 32 &&& 0x0f#32).toNat = byte.val % 16) := by
    decide +kernel
  obtain ⟨hhigh, hlow⟩ := h char.toBitVec.toFin
  rw [hexPair, promote]
  exact congrArg₂ (fun high low : Nat => [hexDigits[high]!, hexDigits[low]!]) hhigh hlow

/-- Different characters have different digits. -/
theorem hexPair_injective : Function.Injective hexPair := by
  have hdigit : ∀ left right : Fin 16, hexDigits[left.val]! = hexDigits[right.val]! →
      left = right := by decide
  intro left right h
  rw [hexPair_eq, hexPair_eq, List.cons.injEq, List.cons.injEq] at h
  have hl := left.toNat_lt
  have hr := right.toNat_lt
  have hhigh := hdigit ⟨left.toNat / 16, by omega⟩ ⟨right.toNat / 16, by omega⟩ h.1
  have hlow := hdigit ⟨left.toNat % 16, by omega⟩ ⟨right.toNat % 16, by omega⟩ h.2.1
  rw [Fin.mk.injEq] at hhigh hlow
  exact UInt8.toNat.inj (by omega)

/-- Each character becomes two digits. -/
theorem length_toHex (inp : Bytes) : (toHex inp).length = 2 * inp.length := by
  induction inp with
  | nil => rfl
  | cons char inp ih =>
      rw [toHex, List.flatMap_cons, List.length_append]
      rw [toHex] at ih
      rw [ih, List.length_cons]
      simp only [hexPair, List.length_cons, List.length_nil]
      omega

/-- A hex text determines its input. -/
theorem toHex_injective : Function.Injective toHex := by
  intro left
  induction left with
  | nil =>
      intro right h
      cases right with
      | nil => rfl
      | cons other right =>
          have hlen := congrArg List.length h
          simp [length_toHex] at hlen
  | cons char left ih =>
      intro right h
      cases right with
      | nil =>
          have hlen := congrArg List.length h
          simp [length_toHex] at hlen
      | cons other right =>
          rw [toHex, toHex, List.flatMap_cons, List.flatMap_cons] at h
          obtain ⟨hpair, hrest⟩ := List.append_inj h rfl
          rw [hexPair_injective hpair, ih hrest]

/-- Only hex digits are pushed. -/
theorem mem_hexDigits_of_mem_toHex {inp : Bytes} {digit : UInt8} (h : digit ∈ toHex inp) :
    digit ∈ hexDigits := by
  have hdigit : ∀ index : Fin 16, hexDigits[index.val]! ∈ hexDigits := by decide
  obtain ⟨char, -, hchar⟩ := List.mem_flatMap.1 h
  have hlt := char.toNat_lt
  rw [hexPair_eq] at hchar
  rcases List.mem_cons.1 hchar with rfl | hchar
  · exact hdigit ⟨char.toNat / 16, by omega⟩
  · rw [List.mem_singleton.1 hchar]
    exact hdigit ⟨char.toNat % 16, by omega⟩

/-- A text of hex digits as long as the hex form of a hash. -/
structure HexId (text : Bytes) : Prop where
  length : text.length = 128
  digits : ∀ digit ∈ text, digit ∈ hexDigits

/-- The hex form of a hash is an id. -/
theorem Sha512.hexId (sha : Sha512) (inp : Bytes) : HexId (toHex (sha.hash inp)) :=
  ⟨by rw [length_toHex, sha.length_hash], fun _ => mem_hexDigits_of_mem_toHex⟩

/-- The key of a short key is an id. -/
theorem hexId_validateKey (sha : Sha512) {key : Bytes} (h : key.length < 128) :
    HexId (validateKey sha key) := by
  rw [validateKey, if_pos h]
  exact sha.hexId key

/-! ## Paths of ids -/

/-- The text that `hash_to_path` makes of a text of at least four bytes. -/
def shardText (inp : Bytes) : Bytes :=
  inp.take 2 ++ slash :: ((inp.drop 2).take 2 ++ slash :: inp.drop 4)

/-- The three components of an id's path. -/
def shard (inp : Bytes) : FilePath := [inp.take 2, (inp.drop 2).take 2, inp.drop 4]

/-- `hash_to_path` needs four bytes. -/
theorem hashToPath_eq (inp : Bytes) :
    hashToPath inp = if 4 ≤ inp.length then some (shardText inp) else none := by
  by_cases h : 4 ≤ inp.length
  · obtain ⟨a, b, c, d, rest, rfl⟩ : ∃ a b c d rest, inp = a :: b :: c :: d :: rest := by
      match inp, h with
      | a :: b :: c :: d :: rest, _ => exact ⟨a, b, c, d, rest, rfl⟩
    simp [hashToPath, insertAt, shardText]
  · rw [if_neg h]
    simp [hashToPath, insertAt, h]

/-- The path text of a long enough text. -/
theorem hashToPath_of_le {inp : Bytes} (h : 4 ≤ inp.length) :
    hashToPath inp = some (shardText inp) := by
  rw [hashToPath_eq, if_pos h]

namespace HexId

variable {text : Bytes}

/-- An id has a path text. -/
theorem hashToPath (h : HexId text) : hashToPath text = some (shardText text) :=
  hashToPath_of_le (by rw [h.length]; decide)

/-- No byte but a hex digit is in an id. -/
theorem not_mem (h : HexId text) {byte : UInt8} (hbyte : byte ∉ hexDigits) : byte ∉ text :=
  fun hmem => hbyte (h.digits byte hmem)

/-- A nonempty piece of an id is a valid name. -/
theorem valid_of_sublist (h : HexId text) {name : Name} (hsub : name.Sublist text)
    (hpos : 0 < name.length) : ValidName name := by
  obtain ⟨first, rest, rfl⟩ := List.exists_cons_of_ne_nil (List.ne_nil_of_length_pos hpos)
  have hfirst : first ≠ 46 := by
    rintro rfl
    have hmem : (46 : UInt8) ∈ text := hsub.subset (by simp)
    exact h.not_mem (by decide) hmem
  have hlen := hsub.length_le
  rw [h.length] at hlen
  refine ⟨by simp [Proper, Stays, hfirst], fun hmem => ?_, fun hmem => ?_, by omega⟩
  · exact h.not_mem (by decide) (hsub.subset hmem)
  · exact h.not_mem (by decide) (hsub.subset hmem)

/-- The components of an id's path are valid names. -/
theorem validPath_shard (h : HexId text) : ValidPath (shard text) := by
  have hlen := h.length
  intro name hname
  simp only [shard, List.mem_cons, List.not_mem_nil, or_false] at hname
  rcases hname with rfl | rfl | rfl
  · refine h.valid_of_sublist (List.take_sublist 2 text) ?_
    rw [List.length_take]
    omega
  · refine h.valid_of_sublist ((List.take_sublist 2 _).trans (List.drop_sublist 2 text)) ?_
    rw [List.length_take, List.length_drop]
    omega
  · refine h.valid_of_sublist (List.drop_sublist 4 text) ?_
    rw [List.length_drop]
    omega

/-- An id is a valid name itself. -/
theorem validName (h : HexId text) : ValidName text := by
  refine h.valid_of_sublist (List.Sublist.refl text) ?_
  rw [h.length]
  decide

end HexId

/-- The shards of a text make it up. -/
theorem flatten_shard (text : Bytes) : (shard text).flatten = text := by
  have hrest : text.drop 4 = (text.drop 2).drop 2 := by rw [List.drop_drop]
  rw [shard, List.flatten_cons, List.flatten_cons, List.flatten_cons, List.flatten_nil,
    List.append_nil, hrest, List.take_append_drop, List.take_append_drop]

/-- The shards of a text determine it. -/
theorem shard_injective {left right : Bytes} (h : shard left = shard right) : left = right := by
  rw [← flatten_shard left, ← flatten_shard right, h]

/-- Erasing the last element of a text that ends in a slash and a name. -/
theorem removeFilename_append_slash {text name : Bytes} (hname : slash ∉ name) :
    removeFilename (text ++ slash :: name) = text.rdropWhile (· = slash) := by
  have h : (text ++ slash :: name).rdropWhile (· ≠ slash) = text ++ [slash] := by
    induction name using List.reverseRecOn with
    | nil => exact List.rdropWhile_concat_neg _ _ _ (by decide)
    | append_singleton name byte ih =>
        rw [List.mem_append, not_or] at hname
        have hbyte : byte ≠ slash := fun heq => hname.2 (by simp [heq])
        rw [show text ++ slash :: (name ++ [byte]) = text ++ slash :: name ++ [byte] by simp,
          List.rdropWhile_concat_pos _ _ _ (by simpa using hbyte), ih hname.1]
  rw [removeFilename, h, List.rdropWhile_concat_pos _ _ _ (by decide)]

/-- The directory of the entries of a path text: it loses its trailing slashes. -/
theorem components_removeFilename_append (text : Bytes) {name : Bytes} (hname : slash ∉ name) :
    ∃ count, components text =
      components (removeFilename (text ++ slash :: name)) ++ List.replicate count [] := by
  rw [removeFilename_append_slash hname]
  obtain ⟨count, hcount⟩ : ∃ count,
      text = text.rdropWhile (· = slash) ++ List.replicate count slash := by
    refine ⟨(text.rtakeWhile (· = slash)).length, ?_⟩
    have hback : text.rtakeWhile (· = slash) =
        List.replicate (text.rtakeWhile (· = slash)).length slash :=
      List.eq_replicate_of_mem fun byte hbyte => by
        simpa using List.mem_rtakeWhile_imp hbyte
    rw [← hback, List.rdropWhile_append_rtakeWhile]
  generalize text.rdropWhile (· = slash) = front at hcount
  subst hcount
  by_cases hzero : (0 : UInt8) ∈ front
  · exact ⟨0, by rw [components, cString_append_of_zero_mem hzero, components]; simp⟩
  · have hnot : (0 : UInt8) ∉ List.replicate count slash := fun hmem =>
      absurd (List.eq_of_mem_replicate hmem) (by decide)
    refine ⟨count, ?_⟩
    rw [components, cString_append_of_zero_not_mem _ hzero, cString_of_zero_not_mem hnot,
      pieces_append_slashes, components, cString_of_zero_not_mem hzero]

/-- A text without a slash at its end has none to lose. -/
theorem rdropWhile_slash_append (text : Bytes) {name : Bytes} (hname : slash ∉ name) (hne : name ≠ []) :
    (text ++ name).rdropWhile (· = slash) = text ++ name := by
  rcases List.eq_nil_or_concat name with rfl | ⟨front, byte, rfl⟩
  · exact absurd rfl hne
  · rw [List.concat_eq_append] at hname ⊢
    rw [List.mem_append, not_or] at hname
    rw [← List.append_assoc]
    refine List.rdropWhile_concat_neg _ _ _ fun heq => hname.2 ?_
    rw [of_decide_eq_true heq]
    exact List.mem_singleton_self slash

/-! ## Path texts of hex digits -/

section Digits

variable {text : Bytes}

/-- No other byte is in the three components. -/
theorem not_mem_shard_of_digits (hdigits : ∀ digit ∈ text, digit ∈ hexDigits) {byte : UInt8}
    (hbyte : byte ∉ hexDigits) :
    byte ∉ text.take 2 ∧ byte ∉ (text.drop 2).take 2 ∧ byte ∉ text.drop 4 := by
  have hnot : byte ∉ text := fun hmem => hbyte (hdigits byte hmem)
  exact ⟨fun hmem => hnot (List.mem_of_mem_take hmem),
    fun hmem => hnot (List.mem_of_mem_drop (List.mem_of_mem_take hmem)),
    fun hmem => hnot (List.mem_of_mem_drop hmem)⟩

/-- There is no zero byte in the path text. -/
theorem zero_not_mem_shardText_of_digits (hdigits : ∀ digit ∈ text, digit ∈ hexDigits) :
    (0 : UInt8) ∉ shardText text := by
  obtain ⟨h1, h2, h3⟩ := not_mem_shard_of_digits hdigits (show (0 : UInt8) ∉ hexDigits by decide)
  simp [shardText, slash, h1, h2, h3]

/-- The pieces of the path text. -/
theorem pieces_shardText_of_digits (hdigits : ∀ digit ∈ text, digit ∈ hexDigits) :
    pieces (shardText text) = shard text := by
  obtain ⟨h1, h2, h3⟩ := not_mem_shard_of_digits hdigits (show slash ∉ hexDigits by decide)
  rw [shardText, pieces_append_slash, pieces_append_slash, pieces_of_slash_not_mem h1,
    pieces_of_slash_not_mem h2, pieces_of_slash_not_mem h3]
  rfl

/-- The path leads down through its components, the last of which is empty if there are only four
digits. -/
theorem normal_components_shardText (hdigits : ∀ digit ∈ text, digit ∈ hexDigits)
    (base : FilePath) :
    normal base (components (shardText text)) = base ++ (shard text).filter (· ≠ []) := by
  have hplain : Plain ((shard text).filter (· ≠ [])) := by
    intro name hname
    obtain ⟨hmem, hne⟩ := List.mem_filter.1 hname
    obtain ⟨first, rest, rfl⟩ := List.exists_cons_of_ne_nil (of_decide_eq_true hne)
    obtain ⟨d1, d2, d3⟩ := not_mem_shard_of_digits hdigits (show 46 ∉ hexDigits by decide)
    have hdot : (46 : UInt8) ∉ first :: rest := by
      simp only [shard, List.mem_cons, List.not_mem_nil, or_false] at hmem
      rcases hmem with heq | heq | heq <;> rw [heq] <;> assumption
    have hfirst : first ≠ 46 := fun heq => hdot (by simp [heq])
    simp [Proper, Stays, hfirst]
  rw [components, cString_of_zero_not_mem (zero_not_mem_shardText_of_digits hdigits),
    pieces_shardText_of_digits hdigits, ← normal_filter, normal_of_plain hplain]

end Digits

namespace HexId

variable {text : Bytes}

/-- The byte sets of the three components. -/
theorem not_mem_shard (h : HexId text) (byte : UInt8) (hbyte : byte ∉ hexDigits) :
    byte ∉ text.take 2 ∧ byte ∉ (text.drop 2).take 2 ∧ byte ∉ text.drop 4 :=
  not_mem_shard_of_digits h.digits hbyte

/-- There is no zero byte in the path text of an id. -/
theorem zero_not_mem_shardText (h : HexId text) : (0 : UInt8) ∉ shardText text :=
  zero_not_mem_shardText_of_digits h.digits

/-- The pieces of an id's path text. -/
theorem pieces_shardText (h : HexId text) : pieces (shardText text) = shard text :=
  pieces_shardText_of_digits h.digits

/-- An id is a single component. -/
theorem components_self (h : HexId text) : components text = [text] := by
  rw [components, cString_of_zero_not_mem (h.not_mem (by decide)),
    pieces_of_slash_not_mem (h.not_mem (by decide))]

/-- The components of an id's path text. -/
@[simp] theorem components_shardText (h : HexId text) :
    components (shardText text) = shard text := by
  rw [components, cString_of_zero_not_mem h.zero_not_mem_shardText, h.pieces_shardText]

/-- The components of an entry of an id's directory. -/
theorem components_shardText_append (h : HexId text) {name : Bytes} (hzero : (0 : UInt8) ∉ name)
    (hslash : slash ∉ name) :
    components (shardText text ++ slash :: name) = shard text ++ [name] := by
  have hnot : (0 : UInt8) ∉ shardText text ++ slash :: name := by
    simp [slash, h.zero_not_mem_shardText, hzero]
  rw [components, cString_of_zero_not_mem hnot, pieces_append_slash, h.pieces_shardText,
    pieces_of_slash_not_mem hslash]

/-- The directory of an id's file. -/
theorem components_removeFilename (h : HexId text) :
    components (removeFilename (shardText text)) = (shard text).dropLast := by
  obtain ⟨h1, h2, h3⟩ := h.not_mem_shard slash (by decide)
  obtain ⟨z1, z2, z3⟩ := h.not_mem_shard 0 (by decide)
  have hne : (text.drop 2).take 2 ≠ [] := by
    rw [ne_eq, ← List.length_eq_zero_iff, List.length_take, List.length_drop, h.length]
    decide
  have hassoc : shardText text =
      (text.take 2 ++ slash :: (text.drop 2).take 2) ++ slash :: text.drop 4 := by
    simp [shardText]
  have hzero : (0 : UInt8) ∉ text.take 2 ++ slash :: (text.drop 2).take 2 := by
    rw [List.mem_append, List.mem_cons, not_or, not_or]
    exact ⟨z1, by decide, z2⟩
  have hstrip := rdropWhile_slash_append (text.take 2 ++ [slash]) h2 hne
  rw [List.append_assoc, List.singleton_append] at hstrip
  rw [hassoc, removeFilename_append_slash h3, hstrip, components, cString_of_zero_not_mem hzero,
    pieces_append_slash, pieces_of_slash_not_mem h1, pieces_of_slash_not_mem h2]
  rfl

/-- The directory of the entries of an id's directory. -/
theorem removeFilename_shardText_append (h : HexId text) {name : Bytes} (hname : slash ∉ name) :
    removeFilename (shardText text ++ slash :: name) = shardText text := by
  obtain ⟨h1, h2, h3⟩ := h.not_mem_shard slash (by decide)
  have hne : text.drop 4 ≠ [] := by
    rw [ne_eq, ← List.length_eq_zero_iff, List.length_drop, h.length]
    decide
  have hassoc : shardText text =
      (text.take 2 ++ slash :: ((text.drop 2).take 2 ++ [slash])) ++ text.drop 4 := by
    simp [shardText]
  rw [removeFilename_append_slash hname, hassoc]
  exact rdropWhile_slash_append _ h3 hne

end HexId

/-! ## The paths of different contents -/

/-- Neither of two path texts leads to where the other one leads or above it, wherever they start. -/
def Apart (path other : Bytes) : Prop :=
  ∀ base, ¬ normal base (components path) <+: normal base (components other) ∧
    ¬ normal base (components other) <+: normal base (components path)

/-- Two texts of as many digits have as many components that are not empty. -/
theorem length_filter_shard {text other : Bytes} (hlength : text.length = other.length)
    (hmin : 4 ≤ text.length) :
    ((shard text).filter (· ≠ [])).length = ((shard other).filter (· ≠ [])).length := by
  have hfirst : ∀ text : Bytes, 4 ≤ text.length → text.take 2 ≠ [] ∧ (text.drop 2).take 2 ≠ [] := by
    intro text hmin
    simp only [ne_eq, ← List.length_eq_zero_iff, List.length_take, List.length_drop]
    omega
  have hlast : text.drop 4 = [] ↔ other.drop 4 = [] := by
    rw [List.drop_eq_nil_iff, List.drop_eq_nil_iff, hlength]
  obtain ⟨h1, h2⟩ := hfirst text hmin
  obtain ⟨o1, o2⟩ := hfirst other (hlength ▸ hmin)
  by_cases hnil : text.drop 4 = []
  · simp [shard, h1, h2, o1, o2, hnil, hlast.1 hnil]
  · simp [shard, h1, h2, o1, o2, hnil, mt hlast.2 hnil]

/-- A path of hex digits that leads to where another one of as many digits leads, or above it, is the
same. -/
theorem eq_of_normal_prefix {text other : Bytes} (hdigits : ∀ digit ∈ text, digit ∈ hexDigits)
    (hothers : ∀ digit ∈ other, digit ∈ hexDigits) (hlength : text.length = other.length)
    (hmin : 4 ≤ text.length) {base : FilePath}
    (h : normal base (components (shardText text)) <+: normal base (components (shardText other))) :
    text = other := by
  rw [normal_components_shardText hdigits, normal_components_shardText hothers,
    List.prefix_append_right_inj] at h
  have hsame := h.eq_of_length (length_filter_shard hlength hmin)
  -- an empty last component adds nothing to the digits
  have hjoin : ∀ path : FilePath, (path.filter (· ≠ [])).flatten = path.flatten := by
    intro path
    induction path with
    | nil => rfl
    | cons name path ih => cases name <;> simp_all
  have htexts := congrArg List.flatten hsame
  rw [hjoin, hjoin, flatten_shard, flatten_shard] at htexts
  exact htexts

/-- The hex form of a text of at least two bytes consists of two digits for each byte, and its path
text determines it. The paths of different texts of one length are apart. -/
theorem hashed_paths_apart (left right : Bytes) (hleft : 2 ≤ left.length)
    (hright : 2 ≤ right.length) :
    ((toHex left).length = 2 * left.length ∧ ∀ digit ∈ toHex left, digit ∈ hexDigits) ∧
      ∃ path other, hashToPath (toHex left) = some path ∧ hashToPath (toHex right) = some other ∧
        (path = other → left = right) ∧
          (left.length = right.length → left ≠ right → Apart path other) := by
  have hmin : ∀ inp : Bytes, 2 ≤ inp.length → 4 ≤ (toHex inp).length := by
    intro inp hinp
    rw [length_toHex]
    omega
  have hdigits : ∀ inp : Bytes, ∀ digit ∈ toHex inp, digit ∈ hexDigits :=
    fun inp digit => mem_hexDigits_of_mem_toHex
  refine ⟨⟨length_toHex left, hdigits left⟩, _, _, hashToPath_of_le (hmin left hleft),
    hashToPath_of_le (hmin right hright), fun hpath => ?_, fun hlength hne base => ?_⟩
  · have hshards := congrArg pieces hpath
    rw [pieces_shardText_of_digits (hdigits left), pieces_shardText_of_digits (hdigits right)]
      at hshards
    exact toHex_injective (shard_injective hshards)
  · have hdouble : (toHex left).length = (toHex right).length := by
      rw [length_toHex, length_toHex, hlength]
    refine ⟨fun hpre => hne (toHex_injective ?_), fun hpre => hne (toHex_injective ?_).symm⟩
    · exact eq_of_normal_prefix (hdigits left) (hdigits right) hdouble (hmin left hleft) hpre
    · exact eq_of_normal_prefix (hdigits right) (hdigits left) hdouble.symm (hmin right hright) hpre

/-- Two bytes that are negative as characters. -/
theorem hashed_paths_negative :
    ((toHex [128, 255]).length = 2 * [128, (255 : UInt8)].length ∧
        ∀ digit ∈ toHex [128, 255], digit ∈ hexDigits) ∧
      ∃ path other, hashToPath (toHex [128, 255]) = some path ∧
        hashToPath (toHex [128, 254]) = some other ∧
        (path = other → ([128, 255] : Bytes) = [128, 254]) ∧
          (([128, 255] : Bytes).length = ([128, 254] : Bytes).length →
            ([128, 255] : Bytes) ≠ [128, 254] → Apart path other) :=
  hashed_paths_apart [128, 255] [128, 254] (by decide) (by decide)

end AnarchNet
