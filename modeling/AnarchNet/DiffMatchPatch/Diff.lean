import AnarchNet.DiffMatchPatch.Bisect
import AnarchNet.DiffMatchPatch.Cleanup
import Mathlib.Data.List.Dedup

/-!
# Diffs of two texts

`diff_main` of `diff_match_patch.h` with what it calls: `diff_compute`, `diff_halfMatch`,
`diff_bisectSplit` and, for long texts, `diff_lineMode`, which reduces the texts to one character
for each line. The functions that call `diff_main` again take it as a parameter, and `diffMain`
takes the number of calls that may be nested.
-/

namespace AnarchNet.DiffMatchPatch

open FileSystem EditScript Native Diagonals EStateM

/-! ## Half matches -/

/-- `HalfMatchResult`. -/
structure HalfMatch where
  text1_a : Bytes
  text1_b : Bytes
  text2_a : Bytes
  text2_b : Bytes
  mid_common : Bytes

namespace HalfMatch

/-- The result before anything is found. -/
def nothing : HalfMatch where
  text1_a := []
  text1_b := []
  text2_a := []
  text2_b := []
  mid_common := []

/-- The result for the texts the other way around. -/
def swapped (hm : HalfMatch) : HalfMatch where
  text1_a := hm.text2_a
  text1_b := hm.text2_b
  text2_a := hm.text1_a
  text2_b := hm.text1_b
  mid_common := hm.mid_common

/-- What the texts have in common around a position of the one and a position of the other, if that
is more than the best so far. -/
def better (longtext shorttext : Bytes) (i : Nat) (best : HalfMatch) (j : Nat) : HalfMatch :=
  let prefixLength := commonPrefix (longtext.drop i) (shorttext.drop j)
  let suffixLength := commonSuffix (longtext.take i) (shorttext.take j)
  if best.mid_common.length < suffixLength + prefixLength then
    { mid_common := (shorttext.drop (j - suffixLength)).take suffixLength ++
        (shorttext.drop j).take prefixLength
      text1_a := longtext.take (i - suffixLength)
      text1_b := longtext.drop (i + prefixLength)
      text2_a := shorttext.take (j - suffixLength)
      text2_b := shorttext.drop (j + prefixLength) }
  else best

end HalfMatch

/-- The positions at which a text is found one after the other. -/
def occurrences (seed text : Bytes) : List Nat :=
  (List.range (text.length + 1)).filter fun j => seed <+: text.drop j

/-- `diff_halfMatchI`. -/
def halfMatchI (longtext shorttext : Bytes) (i : Nat) : Option HalfMatch :=
  -- start with a quarter of the long text as a seed
  let seed := (longtext.drop i).take (longtext.length / 4)
  let best := (occurrences seed shorttext).foldl (HalfMatch.better longtext shorttext i) .nothing
  if longtext.length ≤ best.mid_common.length * 2 then some best else none

/-- The longer one of two half-matches. -/
def longest : Option HalfMatch → Option HalfMatch → Option HalfMatch
  | some hm1, some hm2 =>
      some (if hm2.mid_common.length < hm1.mid_common.length then hm1 else hm2)
  | some hm1, none => some hm1
  | none, hm2 => hm2

/-- `diff_halfMatch`. -/
def halfMatch (text1 text2 : Bytes) : Option HalfMatch :=
  let longtext := if text2.length < text1.length then text1 else text2
  let shorttext := if text2.length < text1.length then text2 else text1
  if longtext.length < 4 ∨ shorttext.length * 2 < longtext.length then none
  else
    -- the second quarter and the third quarter are seeds
    let hm := longest (halfMatchI longtext shorttext ((longtext.length + 3) / 4))
      (halfMatchI longtext shorttext ((longtext.length + 1) / 2))
    if text1.length ≤ text2.length then hm.map HalfMatch.swapped else hm

/-! ## Lines -/

/-- The lines of a text, with their ends. The last one may have none. -/
def linesOf : Bytes → List Bytes
  | [] => []
  | char :: rest =>
      if char = 10 then [char] :: linesOf rest
      else match linesOf rest with
        | [] => [[char]]
        | line :: lines => (char :: line) :: lines

/-- One turn of `diff_linesToCharsMunge`: the line is looked up or added, and its number becomes a
character. -/
def mungeLine (state : Bytes × List Bytes) (line : Bytes) : Bytes × List Bytes :=
  let lineHash := if line ∈ state.2 then state.2 else state.2 ++ [line]
  (state.1 ++ [UInt8.ofNat (lineHash.idxOf line + 1)], lineHash)

/-- `diff_linesToCharsMunge`: the encoded text, and the lines in the order in which they were added.
-/
def linesToCharsMunge (text : Bytes) (lineHash : List Bytes) : Bytes × List Bytes :=
  (linesOf text).foldl mungeLine ([], lineHash)

/-- `diff_linesToChars`: the encoded texts and the array of lines, the zeroth of which is empty. -/
def linesToChars (text1 text2 : Bytes) : Bytes × Bytes × List Bytes :=
  let (chars1, lineHash) := linesToCharsMunge text1 []
  let (chars2, lineHash) := linesToCharsMunge text2 lineHash
  (chars1, chars2, [] :: lineHash)

/-- The line of a character. A character is signed, and a negative one is outside of the array. -/
def lineAt (lineArray : List Bytes) (char : UInt8) : Except Stop Bytes :=
  if char.toNat < 128 then
    match lineArray[char.toNat]? with
    | some line => .ok line
    | none => .error .outside
  else .error .outside

/-- `diff_charsToLines`. -/
def charsToLines (lineArray : List Bytes) (diffs : Diffs) : Except Stop Diffs :=
  diffs.mapM fun diff => do
    let lines ← diff.text.mapM (lineAt lineArray)
    return { diff with text := lines.flatten }

/-! ## The diff -/

/-- `diff_main` with its flag `checklines`. -/
abbrev DiffMain := Bytes → Bytes → Bool → Timed Diffs

/-- One turn of the loop of `diff_lineMode`, with the diffs before the edits since the last
equality, and these edits. -/
def rediff (again : DiffMain) (state : Diffs × Diffs) (cur : Diff) : Timed (Diffs × Diffs) :=
  let (front, run) := state
  if cur.operation = .equal then
    if run.any (·.operation = .delete) ∧ run.any (·.operation = .insert) then do
      let diffs ← again (oldText run) (newText run) false
      return (front ++ diffs ++ [cur], [])
    else return (front ++ run ++ [cur], [])
  else return (front, run ++ [cur])

/-- An exception of a cleanup. -/
def orThrow {α : Type} : Option α → Timed α
  | some value => return value
  | none => throw .thrown

/-- `diff_lineMode`. -/
def lineMode (again : DiffMain) (text1 text2 : Bytes) : Timed Diffs := do
  let (chars1, chars2, lineArray) := linesToChars text1 text2
  let diffs ← again chars1 chars2 false
  let diffs ← untimed (charsToLines lineArray diffs)
  let diffs ← orThrow (cleanupSemantic diffs)
  let (front, run) ← (diffs ++ [dummy]).foldlM (rediff again) ([], [])
  return (front ++ run).dropLast

/-- The characters of a text from a position on. -/
def safeMid (text : Bytes) (pos : Int) : Except Stop Bytes :=
  if 0 ≤ pos ∧ pos ≤ text.length then .ok (text.drop pos.toNat) else .error .thrown

/-- The characters of a text up to a position. A negative one is larger than every length. -/
def substr (text : Bytes) (pos : Int) : Bytes := if pos < 0 then text else text.take pos.toNat

/-- `diff_bisectSplit`. -/
def bisectSplit (again : DiffMain) (text1 text2 : Bytes) (x y : Int) : Timed Diffs := do
  let text1b ← untimed (safeMid text1 x)
  let text2b ← untimed (safeMid text2 y)
  let diffs ← again (substr text1 x) (substr text2 y) false
  let diffs_b ← again text1b text2b false
  return diffs ++ diffs_b

/-- `diff_bisect`. -/
def bisect (again : DiffMain) (text1 text2 : Bytes) : Timed Diffs := do
  match ← findSplit text1 text2 with
  | some (x, y) => bisectSplit again text1 text2 x y
  | none => return [⟨.delete, text1⟩, ⟨.insert, text2⟩]

/-- The end of `diff_compute`, where neither text is inside of the other one. -/
def computeRest (again : DiffMain) (text1 text2 : Bytes) (checklines : Bool) : Timed Diffs := do
  let limited := (← get).isSome
  match if limited then halfMatch text1 text2 else none with
  | some hm =>
      let diffs ← again hm.text1_a hm.text2_a checklines
      let diffs_b ← again hm.text1_b hm.text2_b checklines
      return diffs ++ ⟨.equal, hm.mid_common⟩ :: diffs_b
  | none =>
      if checklines ∧ 100 < text1.length ∧ 100 < text2.length then lineMode again text1 text2
      else bisect again text1 text2

/-- `diff_compute`. -/
def compute (again : DiffMain) (text1 text2 : Bytes) (checklines : Bool) : Timed Diffs :=
  if text1 = [] then return [⟨.insert, text2⟩]
  else if text2 = [] then return [⟨.delete, text1⟩]
  else
    let longtext := if text2.length < text1.length then text1 else text2
    let shorttext := if text2.length < text1.length then text2 else text1
    match Search.indexOf shorttext longtext 0 with
    | some i =>
        let op := if text2.length < text1.length then Operation.delete else .insert
        return [⟨op, longtext.take i⟩, ⟨.equal, shorttext⟩,
          ⟨op, longtext.drop (i + shorttext.length)⟩]
    | none =>
        if shorttext.length = 1 then return [⟨.delete, text1⟩, ⟨.insert, text2⟩]
        else computeRest again text1 text2 checklines

/-- `diff_main`, with so many nested calls at most. -/
def diffMain : Nat → DiffMain
  | 0, _, _, _ => throw .running
  | steps + 1, text1, text2, checklines =>
      if text1 = text2 then return if text1 = [] then [] else [⟨.equal, text1⟩]
      else do
        -- trim off the common prefix and the common suffix
        let commonlength := commonPrefix text1 text2
        let commonprefix := text1.take commonlength
        let textChopped1 := text1.drop commonlength
        let textChopped2 := text2.drop commonlength
        let commonlength := commonSuffix textChopped1 textChopped2
        let commonsuffix := right textChopped1 commonlength
        let diffs ← compute (diffMain steps) (chop textChopped1 commonlength)
          (chop textChopped2 commonlength) checklines
        -- restore the prefix and the suffix
        let diffs := if commonprefix = [] then diffs else ⟨.equal, commonprefix⟩ :: diffs
        let diffs := if commonsuffix = [] then diffs else diffs ++ [⟨.equal, commonsuffix⟩]
        orThrow (cleanupMerge diffs)

/-! ## What is common to two texts -/

section Common

variable {text1 text2 : Bytes}

/-- Behind the common prefix, the texts have none. -/
theorem head?_ne_of_commonPrefix (hne1 : text1 ≠ []) (hne2 : text2 ≠ [])
    (h : commonPrefix text1 text2 = 0) : text1.head? ≠ text2.head? := by
  cases text1 with
  | nil => exact absurd rfl hne1
  | cons x text1 =>
      cases text2 with
      | nil => exact absurd rfl hne2
      | cons y text2 =>
          rw [commonPrefix] at h
          intro heq
          rw [List.head?_cons, List.head?_cons, Option.some.injEq] at heq
          rw [if_pos heq] at h
          omega

theorem commonPrefix_drop (text1 text2 : Bytes) :
    commonPrefix (text1.drop (commonPrefix text1 text2)) (text2.drop (commonPrefix text1 text2)) =
      0 := by
  induction text1 generalizing text2 with
  | nil => simp [commonPrefix]
  | cons x text1 ih =>
      cases text2 with
      | nil => simp [commonPrefix]
      | cons y text2 =>
          rw [commonPrefix]
          split
          · rw [List.drop_succ_cons, List.drop_succ_cons]
            exact ih text2
          · rename_i hne
            rw [List.drop_zero, List.drop_zero, commonPrefix, if_neg hne]

/-- What is left of two texts without their common prefix and suffix: they begin and end in
different characters, unless one is empty. -/
def Stripped (text1 text2 : Bytes) : Prop :=
  text1 ≠ [] → text2 ≠ [] → text1.head? ≠ text2.head? ∧ text1.getLast? ≠ text2.getLast?

/-- Without its end a text begins as it did. -/
theorem head?_chop {text : Bytes} {count : Nat} (h : chop text count ≠ []) :
    (chop text count).head? = text.head? := by
  rw [chop, List.head?_take, if_neg]
  intro hzero
  rw [chop, hzero] at h
  exact h List.take_zero

theorem stripped (text1 text2 : Bytes) :
    let front := commonPrefix text1 text2
    let back := commonSuffix (text1.drop front) (text2.drop front)
    Stripped (chop (text1.drop front) back) (chop (text2.drop front) back) := by
  intro front back hne1 hne2
  have hdrop : ∀ {text : Bytes}, chop text back ≠ [] → text ≠ [] := by
    intro text h hnil
    rw [hnil, chop, List.take_nil] at h
    exact h rfl
  refine ⟨?_, ?_⟩
  · rw [head?_chop hne1, head?_chop hne2]
    exact head?_ne_of_commonPrefix (hdrop hne1) (hdrop hne2) (commonPrefix_drop text1 text2)
  · -- the reversed texts behind their common prefix
    have hreverse : ∀ text : Bytes, (chop text back).reverse = text.reverse.drop back := by
      intro text
      rw [chop, List.drop_reverse]
    rw [← List.head?_reverse, ← List.head?_reverse, hreverse, hreverse]
    refine head?_ne_of_commonPrefix ?_ ?_ (commonPrefix_drop _ _)
    · rw [← hreverse]
      exact fun hnil => hne1 (List.reverse_eq_nil_iff.1 hnil)
    · rw [← hreverse]
      exact fun hnil => hne2 (List.reverse_eq_nil_iff.1 hnil)

end Common

/-! ## Half matches -/

section Halves

variable {longtext shorttext text1 text2 : Bytes} {hm best : HalfMatch}

/-- The middle is in both texts, between the other parts. -/
structure HalfMatch.Fits (hm : HalfMatch) (text1 text2 : Bytes) : Prop where
  first : text1 = hm.text1_a ++ (hm.mid_common ++ hm.text1_b)
  second : text2 = hm.text2_a ++ (hm.mid_common ++ hm.text2_b)

/-- A text around a position. -/
theorem around (text : Bytes) (i suffix length : Nat) (hsuffix : suffix ≤ i) :
    text = text.take (i - suffix) ++ (((text.drop (i - suffix)).take suffix ++
      (text.drop i).take length) ++ text.drop (i + length)) := by
  have hback : (text.drop i).take length ++ text.drop (i + length) = text.drop i := by
    rw [← List.drop_drop, List.take_append_drop]
  have hmiddle : (text.drop (i - suffix)).take suffix ++ text.drop i = text.drop (i - suffix) := by
    conv_rhs => rw [← List.take_append_drop suffix (text.drop (i - suffix)), List.drop_drop,
      Nat.sub_add_cancel hsuffix]
  rw [List.append_assoc, hback, hmiddle, List.take_append_drop]

/-- The end of the first characters. -/
theorem right_take (text : Bytes) {i : Nat} (hi : i ≤ text.length) (suffix : Nat) :
    right (text.take i) suffix = (text.drop (i - suffix)).take (i - (i - suffix)) := by
  rw [right, List.length_take, Nat.min_eq_left hi, List.drop_take]

theorem HalfMatch.better_fits {i j : Nat} (hi : i ≤ longtext.length) (hj : j ≤ shorttext.length)
    (h : best.mid_common = [] ∨ best.Fits longtext shorttext) :
    (best.better longtext shorttext i j).mid_common = [] ∨
      (best.better longtext shorttext i j).Fits longtext shorttext := by
  rw [better]
  obtain ⟨length, hlength⟩ : ∃ length,
      commonPrefix (longtext.drop i) (shorttext.drop j) = length := ⟨_, rfl⟩
  obtain ⟨suffix, hsuffix⟩ : ∃ suffix,
      commonSuffix (longtext.take i) (shorttext.take j) = suffix := ⟨_, rfl⟩
  have hle := commonSuffix_le (longtext.take i) (shorttext.take j)
  have htake := take_commonPrefix (longtext.drop i) (shorttext.drop j)
  have hright := right_commonSuffix (longtext.take i) (shorttext.take j)
  rw [hsuffix, List.length_take, List.length_take] at hle
  rw [hlength] at htake
  rw [hsuffix, right_take _ hi, right_take _ hj, show i - (i - suffix) = suffix by omega,
    show j - (j - suffix) = suffix by omega] at hright
  simp only [hlength, hsuffix]
  split
  · right
    constructor
    · have := around longtext i suffix length (by omega)
      rwa [hright, htake] at this
    · exact around shorttext j suffix length (by omega)
  · exact h

theorem halfMatchI_fits {i : Nat} (hi : i ≤ longtext.length) (hlong : longtext ≠ [])
    (h : halfMatchI longtext shorttext i = some hm) :
    hm.Fits longtext shorttext ∧ hm.mid_common ≠ [] := by
  simp only [halfMatchI, Option.ite_none_right_eq_some] at h
  obtain ⟨hlength, heq⟩ := h
  rw [Option.some.inj heq] at hlength
  have hpos := List.length_pos_of_ne_nil hlong
  have hmid : hm.mid_common ≠ [] := by
    intro hnil
    rw [hnil, List.length_nil] at hlength
    omega
  have hfold : ∀ (positions : List Nat) (best : HalfMatch),
      (∀ j ∈ positions, j ≤ shorttext.length) →
      (best.mid_common = [] ∨ best.Fits longtext shorttext) →
      (positions.foldl (HalfMatch.better longtext shorttext i) best).mid_common = [] ∨
        (positions.foldl (HalfMatch.better longtext shorttext i) best).Fits longtext shorttext := by
    intro positions
    induction positions with
    | nil => exact fun best _ hbest => hbest
    | cons j positions ih =>
        intro best hpositions hbest
        obtain ⟨hj, hrest⟩ := List.forall_mem_cons.1 hpositions
        exact ih _ hrest (HalfMatch.better_fits hi hj hbest)
  have hfits := hfold (occurrences ((longtext.drop i).take (longtext.length / 4)) shorttext)
    .nothing
    (fun j hj => Nat.lt_succ_iff.1 (List.mem_range.1 (List.mem_of_mem_filter hj))) (Or.inl rfl)
  rw [Option.some.inj heq] at hfits
  exact ⟨hfits.resolve_left hmid, hmid⟩

theorem longest_eq_some {hm1 hm2 : Option HalfMatch} (h : longest hm1 hm2 = some hm) :
    hm1 = some hm ∨ hm2 = some hm := by
  cases hm1 with
  | none => exact Or.inr h
  | some hm1 =>
      cases hm2 with
      | none => exact Or.inl h
      | some hm2 =>
          rw [longest, Option.some.injEq] at h
          rw [← h]
          split
          · exact Or.inl rfl
          · exact Or.inr rfl

/-- **A half-match** cuts both texts around a common middle. -/
theorem halfMatch_fits (h : halfMatch text1 text2 = some hm) :
    hm.Fits text1 text2 ∧ hm.mid_common ≠ [] := by
  simp only [halfMatch, Option.ite_none_left_eq_some] at h
  obtain ⟨hlength, hfound⟩ := h
  rw [not_or] at hlength
  have hhalf : ∀ {hm : HalfMatch}, ∀ {longtext shorttext : Bytes}, ¬ longtext.length < 4 →
      longest (halfMatchI longtext shorttext ((longtext.length + 3) / 4))
        (halfMatchI longtext shorttext ((longtext.length + 1) / 2)) = some hm →
      hm.Fits longtext shorttext ∧ hm.mid_common ≠ [] := by
    intro hm longtext shorttext hlong hlongest
    have hne : longtext ≠ [] := by
      intro hnil
      rw [hnil] at hlong
      exact hlong (by decide)
    rcases longest_eq_some hlongest with hfirst | hsecond
    · exact halfMatchI_fits (by omega) hne hfirst
    · exact halfMatchI_fits (by omega) hne hsecond
  by_cases hlonger : text2.length < text1.length
  · rw [if_neg (by omega)] at hfound
    simp only [if_pos hlonger] at hlength hfound
    exact hhalf hlength.1 hfound
  · rw [if_pos (by omega), Option.map_eq_some_iff] at hfound
    simp only [if_neg hlonger] at hlength hfound
    obtain ⟨hm', hfound, heq⟩ := hfound
    obtain ⟨hfits, hmid⟩ := hhalf hlength.1 hfound
    rw [← heq]
    exact ⟨⟨hfits.second, hfits.first⟩, hmid⟩

end Halves

/-! ## Lines -/

section Lines

variable {text text1 text2 chars : Bytes} {table : List Bytes}

/-- The lines make up the text. -/
theorem flatten_linesOf (text : Bytes) : (linesOf text).flatten = text := by
  fun_induction linesOf text with
  | case1 => rfl
  | case2 rest ih => rw [List.flatten_cons, ih, List.singleton_append]
  | case3 char rest _ hnil ih =>
      rw [hnil] at ih
      rw [← ih]
      rfl
  | case4 char rest _ line lines hlines ih =>
      rw [hlines, List.flatten_cons] at ih
      rw [List.flatten_cons, List.cons_append, ih]

/-- A line has a character at least. -/
theorem linesOf_ne_nil (text : Bytes) : ∀ line ∈ linesOf text, line ≠ [] := by
  fun_induction linesOf text with
  | case1 => exact fun _ hline => absurd hline List.not_mem_nil
  | case2 rest ih =>
      exact List.forall_mem_cons.2 ⟨List.cons_ne_nil _ _, ih⟩
  | case3 char rest hchar hlines ih =>
      exact List.forall_mem_cons.2 ⟨List.cons_ne_nil _ _, fun _ hline => absurd hline List.not_mem_nil⟩
  | case4 char rest hchar line lines hlines ih =>
      rw [hlines] at ih
      exact List.forall_mem_cons.2 ⟨List.cons_ne_nil _ _, (List.forall_mem_cons.1 ih).2⟩

/-- There is at most one line more than ends of lines. -/
theorem length_linesOf_count (text : Bytes) : (linesOf text).length ≤ text.count 10 + 1 := by
  fun_induction linesOf text with
  | case1 => exact Nat.zero_le _
  | case2 rest ih =>
      rw [List.count_cons_self, List.length_cons]
      omega
  | case3 char rest _ hnil ih =>
      rw [List.length_singleton]
      omega
  | case4 char rest hnewline line lines hlines ih =>
      rw [hlines, List.length_cons] at ih
      rw [List.count_cons_of_ne hnewline, List.length_cons]
      exact ih

/-- No line is empty. -/
theorem length_linesOf_le (text : Bytes) : (linesOf text).length ≤ text.length := by
  fun_induction linesOf text with
  | case1 => exact le_refl _
  | case2 rest ih =>
      rw [List.length_cons, List.length_cons]
      omega
  | case3 char rest _ hnil ih =>
      rw [List.length_singleton, List.length_cons]
      omega
  | case4 char rest hnewline line lines hlines ih =>
      rw [hlines] at ih
      rw [List.length_cons, List.length_cons] at *
      omega

/-- The number of a line, as a character. -/
def charOf (table : List Bytes) (line : Bytes) : UInt8 := UInt8.ofNat (table.idxOf line + 1)

/-- The number of different lines of two texts. -/
def differentLines (text1 text2 : Bytes) : Nat := (linesOf text1 ++ linesOf text2).dedup.length

theorem differentLines_le (text1 text2 : Bytes) :
    differentLines text1 text2 ≤ text1.count 10 + text2.count 10 + 2 := by
  have hle := (List.dedup_sublist (linesOf text1 ++ linesOf text2)).length_le
  have hcount1 := length_linesOf_count text1
  have hcount2 := length_linesOf_count text2
  rw [List.length_append] at hle
  unfold differentLines
  omega

/-- What encoding lines has made of a table: it has the lines too, and each of them once, and the
number of each new line is among the characters. -/
structure Munged (table : List Bytes) (lines : List Bytes) (chars : Bytes) (after : List Bytes) :
    Prop where
  grows : table <+: after
  mem_iff : ∀ line, line ∈ after ↔ line ∈ table ∨ line ∈ lines
  nodup : table.Nodup → after.Nodup
  encoded : chars = lines.map (charOf after)
  used : ∀ i, table.length ≤ i → i < after.length → UInt8.ofNat (i + 1) ∈ chars

/-- A line keeps its number when the table grows. -/
theorem charOf_of_grows {after : List Bytes} (h : table <+: after) {line : Bytes}
    (hline : line ∈ table) : charOf after line = charOf table line := by
  obtain ⟨new, rfl⟩ := h
  rw [charOf, charOf, List.idxOf_append_of_mem hline]

theorem munge_spec (lines : List Bytes) (state : Bytes × List Bytes) :
    ∃ chars after, lines.foldl mungeLine state = (state.1 ++ chars, after) ∧
      Munged state.2 lines chars after := by
  induction lines generalizing state with
  | nil =>
      refine ⟨[], state.2, by rw [List.append_nil]; rfl, List.prefix_rfl, ?_, fun h => h, rfl, ?_⟩
      · intro line
        simp
      · intro i hi hi'
        omega
  | cons line lines ih =>
      obtain ⟨middle, hmiddle⟩ : ∃ middle,
          (if line ∈ state.2 then state.2 else state.2 ++ [line]) = middle := ⟨_, rfl⟩
      have hgrows : state.2 <+: middle := by
        rw [← hmiddle]
        split
        · exact List.prefix_rfl
        · exact List.prefix_append _ _
      have hmem : ∀ other, other ∈ middle ↔ other ∈ state.2 ∨ other = line := by
        intro other
        rw [← hmiddle]
        split
        · rename_i hin
          refine ⟨Or.inl, fun hor => ?_⟩
          rcases hor with hother | rfl
          · exact hother
          · exact hin
        · rw [List.mem_append, List.mem_singleton]
      have hline : line ∈ middle := (hmem line).2 (Or.inr rfl)
      have hnodup : state.2.Nodup → middle.Nodup := by
        intro hstate
        rw [← hmiddle]
        split
        · exact hstate
        · rename_i hout
          rw [← List.concat_eq_append]
          exact hstate.concat hout
      have hnew : middle.length = state.2.length ∨
          middle.length = state.2.length + 1 ∧ middle.idxOf line = state.2.length := by
        rw [← hmiddle]
        split
        · exact Or.inl rfl
        · rename_i hout
          right
          rw [List.idxOf_append_of_notMem hout, List.idxOf_cons_self, List.length_append]
          simp
      obtain ⟨chars, after, hfold, hmunged⟩ := ih (mungeLine state line)
      have hstep : mungeLine state line = (state.1 ++ [charOf middle line], middle) := by
        rw [mungeLine, hmiddle]
        rfl
      rw [hstep] at hfold hmunged
      refine ⟨charOf middle line :: chars, after, ?_, hgrows.trans hmunged.grows, ?_,
        fun hstate => hmunged.nodup (hnodup hstate), ?_, ?_⟩
      · rw [List.foldl_cons, hstep, hfold, List.append_assoc]
        rfl
      · intro other
        rw [hmunged.mem_iff, hmem, List.mem_cons, or_assoc]
      · rw [List.map_cons, charOf_of_grows hmunged.grows hline, hmunged.encoded]
      · intro i hi hi'
        by_cases hlate : middle.length ≤ i
        · exact List.mem_cons_of_mem _ (hmunged.used i hlate hi')
        · rcases hnew with heq | ⟨heq, hindex⟩
          · omega
          · obtain rfl : i = state.2.length := by omega
            rw [charOf, hindex]
            exact List.mem_cons_self

/-- Both texts are encoded. -/
theorem linesToChars_spec (text1 text2 : Bytes) : ∃ table,
    linesToChars text1 text2 =
      ((linesOf text1).map (charOf table), (linesOf text2).map (charOf table), [] :: table) ∧
    (∀ line, line ∈ linesOf text1 ∨ line ∈ linesOf text2 → line ∈ table) ∧
    table.length = differentLines text1 text2 ∧
    (128 ≤ table.length →
      128 ∈ (linesOf text1).map (charOf table) ∨ 128 ∈ (linesOf text2).map (charOf table)) := by
  obtain ⟨chars1, table1, hfold1, hmunged1⟩ := munge_spec (linesOf text1) ([], [])
  obtain ⟨chars2, table2, hfold2, hmunged2⟩ := munge_spec (linesOf text2) ([], table1)
  have hchars1 : chars1 = (linesOf text1).map (charOf table2) := by
    rw [hmunged1.encoded]
    refine List.map_congr_left fun line hline => ?_
    exact (charOf_of_grows hmunged2.grows ((hmunged1.mem_iff line).2 (Or.inr hline))).symm
  have hmem : ∀ line, line ∈ table2 ↔ line ∈ linesOf text1 ∨ line ∈ linesOf text2 := by
    intro line
    rw [hmunged2.mem_iff, hmunged1.mem_iff]
    simp
  refine ⟨table2, ?_, fun line hline => (hmem line).2 hline, ?_, ?_⟩
  · rw [← hchars1, ← hmunged2.encoded]
    simp only [linesToChars, linesToCharsMunge, hfold1, hfold2, List.nil_append]
  · -- the table is the list of lines without its repetitions, but for the order
    refine List.Perm.length_eq ((List.perm_ext_iff_of_nodup
      (hmunged2.nodup (hmunged1.nodup List.nodup_nil)) (List.nodup_dedup _)).2 fun line => ?_)
    rw [hmem, List.mem_dedup, List.mem_append]
  · intro hmany
    rw [← hchars1, ← hmunged2.encoded]
    by_cases hfirst : 128 ≤ table1.length
    · exact Or.inl (hmunged1.used 127 (Nat.zero_le _) hfirst)
    · exact Or.inr (hmunged2.used 127 (by simp only; omega) hmany)

/-- A character is looked up, or outside of the array. -/
theorem lineAt_cases (lineArray : List Bytes) (char : UInt8) :
    (∃ line, lineAt lineArray char = .ok line) ∨ lineAt lineArray char = .error .outside := by
  rw [lineAt]
  split
  · split
    · exact Or.inl ⟨_, rfl⟩
    · exact Or.inr rfl
  · exact Or.inr rfl

/-- The number of a line leads back to the line, unless there are too many. -/
theorem lineAt_charOf (hfew : table.length < 128) {line : Bytes} (hline : line ∈ table) :
    lineAt ([] :: table) (charOf table line) = .ok line := by
  have hindex := List.idxOf_lt_length_of_mem hline
  have htoNat : (charOf table line).toNat = table.idxOf line + 1 := by
    rw [charOf, UInt8.toNat_ofNat', Nat.mod_eq_of_lt (by omega)]
  rw [lineAt, htoNat, if_pos (by omega), List.getElem?_cons_succ, List.getElem?_eq_getElem hindex,
    List.getElem_idxOf hindex]

/-- Characters that are looked up. -/
theorem charsToLines_ok {lineArray : List Bytes} {diffs : Diffs} {meaning : UInt8 → Bytes}
    (h : ∀ diff ∈ diffs, ∀ char ∈ diff.text, lineAt lineArray char = .ok (meaning char)) :
    charsToLines lineArray diffs = .ok (diffs.map (Edit.expand meaning)) := by
  have hchars : ∀ chars : Bytes, (∀ char ∈ chars, lineAt lineArray char = .ok (meaning char)) →
      chars.mapM (lineAt lineArray) = .ok (chars.map meaning) := by
    intro chars
    induction chars with
    | nil => exact fun _ => rfl
    | cons char chars ih =>
        intro hchars
        obtain ⟨hchar, hrest⟩ := List.forall_mem_cons.1 hchars
        rw [List.mapM_cons, hchar, ih hrest]
        rfl
  induction diffs with
  | nil => rfl
  | cons diff diffs ih =>
      obtain ⟨hdiff, hrest⟩ := List.forall_mem_cons.1 h
      have hdiffs := ih hrest
      rw [charsToLines] at hdiffs
      rw [charsToLines, List.mapM_cons, hchars _ hdiff, hdiffs]
      rfl

/-- A list in which something is outside of the array. -/
theorem mapM_outside {α β : Type} {f : α → Except Stop β}
    (hf : ∀ x, (∃ y, f x = .ok y) ∨ f x = .error .outside) {xs : List α} {x : α} (hx : x ∈ xs)
    (hout : f x = .error .outside) : xs.mapM f = .error .outside := by
  induction xs with
  | nil => cases hx
  | cons first xs ih =>
      rw [List.mapM_cons]
      rcases hf first with ⟨y, hy⟩ | hfirst
      · rw [hy]
        rcases List.mem_cons.1 hx with rfl | hx
        · rw [hy] at hout
          cases hout
        · rw [ih hx]
          rfl
      · rw [hfirst]
        rfl

/-- A character that is outside of the array. -/
theorem charsToLines_outside {lineArray : List Bytes} {diffs : Diffs} {diff : Diff}
    (hdiff : diff ∈ diffs) {char : UInt8} (hchar : char ∈ diff.text)
    (hout : lineAt lineArray char = .error .outside) :
    charsToLines lineArray diffs = .error .outside := by
  have hlines : ∀ chars : Bytes, (∃ lines, chars.mapM (lineAt lineArray) = .ok lines) ∨
      chars.mapM (lineAt lineArray) = .error .outside := by
    intro chars
    by_cases hall : ∃ char ∈ chars, lineAt lineArray char = .error .outside
    · obtain ⟨char, hchar, hout⟩ := hall
      exact Or.inr (mapM_outside (lineAt_cases lineArray) hchar hout)
    · left
      induction chars with
      | nil => exact ⟨[], rfl⟩
      | cons char chars ih =>
          rw [List.exists_mem_cons_iff, not_or] at hall
          obtain ⟨line, hline⟩ := (lineAt_cases lineArray char).resolve_right hall.1
          obtain ⟨lines, hlines⟩ := ih hall.2
          refine ⟨line :: lines, ?_⟩
          rw [List.mapM_cons, hline, hlines]
          rfl
  refine mapM_outside (fun diff => ?_) hdiff ?_
  · rcases hlines diff.text with ⟨lines, hlines⟩ | hlines
    · rw [hlines]
      exact Or.inl ⟨_, rfl⟩
    · rw [hlines]
      exact Or.inr rfl
  · rw [mapM_outside (lineAt_cases lineArray) hchar hout]
    rfl

/-- **Decoding a diff of encoded texts** gives a diff of the texts, unless there are more than 127
different lines: then there is an access outside of the array. -/
theorem charsToLines_spec
    (htable : ∀ line, line ∈ linesOf text1 ∨ line ∈ linesOf text2 → line ∈ table)
    (hmany : 128 ≤ table.length →
      128 ∈ (linesOf text1).map (charOf table) ∨ 128 ∈ (linesOf text2).map (charOf table))
    {diffs : Diffs} (hold : oldText diffs = (linesOf text1).map (charOf table))
    (hnew : newText diffs = (linesOf text2).map (charOf table)) :
    (table.length < 128 ∧ ∃ decoded, charsToLines ([] :: table) diffs = .ok decoded ∧
      oldText decoded = text1 ∧ newText decoded = text2) ∨
    128 ≤ table.length ∧ charsToLines ([] :: table) diffs = .error .outside := by
  by_cases hfew : table.length < 128
  · refine Or.inl ⟨hfew, ?_⟩
    obtain ⟨meaning, hmeaning⟩ : ∃ meaning : UInt8 → Bytes, ∀ line ∈ table,
        lineAt ([] :: table) (charOf table line) = .ok (meaning (charOf table line)) ∧
          meaning (charOf table line) = line := by
      refine ⟨fun char => (lineAt ([] :: table) char).toOption.getD [], fun line hline => ?_⟩
      simp only [lineAt_charOf hfew hline]
      exact ⟨rfl, rfl⟩
    have htext : ∀ text, (∀ line ∈ linesOf text, line ∈ table) →
        ((linesOf text).map (charOf table)).flatMap meaning = text := by
      intro text hlines
      calc ((linesOf text).map (charOf table)).flatMap meaning
          = (((linesOf text).map (charOf table)).map meaning).flatten := rfl
        _ = (linesOf text).flatten := by
          have hsame : ∀ line ∈ linesOf text, (meaning ∘ charOf table) line = id line :=
            fun line hline => (hmeaning line (hlines line hline)).2
          rw [List.map_map, List.map_congr_left hsame, List.map_id]
        _ = text := flatten_linesOf text
    refine ⟨diffs.map (Edit.expand meaning), charsToLines_ok ?_, ?_, ?_⟩
    · intro diff hdiff char hchar
      have hmem := mem_texts.2 ⟨diff, hdiff, hchar⟩
      rw [hold, hnew, List.mem_map, List.mem_map] at hmem
      rcases hmem with ⟨line, hline, rfl⟩ | ⟨line, hline, rfl⟩
      · exact (hmeaning line (htable line (Or.inl hline))).1
      · exact (hmeaning line (htable line (Or.inr hline))).1
    · rw [oldText_expand, hold]
      exact htext text1 fun line hline => htable line (Or.inl hline)
    · rw [newText_expand, hnew]
      exact htext text2 fun line hline => htable line (Or.inr hline)
  · right
    have hchar : (128 : UInt8) ∈ oldText diffs ∨ (128 : UInt8) ∈ newText diffs := by
      rw [hold, hnew]
      exact hmany (by omega)
    obtain ⟨diff, hdiff, hchar⟩ := mem_texts.1 hchar
    exact ⟨by omega, charsToLines_outside hdiff hchar rfl⟩

end Lines

/-! ## Diffs of two texts -/

/-- The texts are so long that their lines may be compared. -/
def Lined (checklines : Bool) (text1 text2 : Bytes) : Prop :=
  checklines = true ∧ 100 < text1.length ∧ 100 < text2.length

/-- The diffs spell the new text and the old one. Of the old one only the length is sure where lines
may be compared. -/
structure Spells (checklines : Bool) (text1 text2 : Bytes) (diffs : Diffs) : Prop where
  new : newText diffs = text2
  length : (oldText diffs).length = text1.length
  old : ¬ Lined checklines text1 text2 → oldText diffs = text1

/-- The exception that cannot be excluded: where many lines may be compared, there may be an access
outside of their array. -/
def Excuse (checklines : Bool) (text1 text2 : Bytes) (stop : Stop) : Prop :=
  Lined checklines text1 text2 ∧ stop = .outside ∧ 125 < text1.count 10 + text2.count 10

section Spells

variable {checklines : Bool} {text1 text2 text1_a text1_b text2_a text2_b : Bytes}
  {diffs diffs_b : Diffs}

theorem spells_of_eq (h : oldText diffs = text1) (h' : newText diffs = text2) :
    Spells checklines text1 text2 diffs := ⟨h', by rw [h], fun _ => h⟩

theorem Lined.mono (h : Lined checklines text1_a text2_a) (h1 : text1_a.length ≤ text1.length)
    (h2 : text2_a.length ≤ text2.length) : Lined checklines text1 text2 :=
  ⟨h.1, lt_of_lt_of_le h.2.1 h1, lt_of_lt_of_le h.2.2 h2⟩

theorem Spells.append (h : Spells checklines text1_a text2_a diffs)
    (h' : Spells checklines text1_b text2_b diffs_b) :
    Spells checklines (text1_a ++ text1_b) (text2_a ++ text2_b) (diffs ++ diffs_b) where
  new := by rw [newText_append, h.new, h'.new]
  length := by rw [oldText_append, List.length_append, h.length, h'.length, List.length_append]
  old := by
    intro hlined
    rw [oldText_append, h.old, h'.old]
    · exact fun hpart => hlined (hpart.mono (by simp) (by simp))
    · exact fun hpart => hlined (hpart.mono (by simp) (by simp))

theorem spells_equal (text : Bytes) : Spells checklines text text [⟨.equal, text⟩] :=
  spells_of_eq (List.append_nil text) (List.append_nil text)

theorem Spells.of_same (h : Spells checklines text1 text2 diffs) {after : Diffs}
    (hsame : Same after diffs) : Spells checklines text1 text2 after where
  new := hsame.new.trans h.new
  length := by rw [hsame.old, h.length]
  old := fun hlined => hsame.old.trans (h.old hlined)

/-- Texts that lie inside of others have an exception only if these have. -/
theorem Excuse.mono {stop : Stop} (h : Excuse checklines text1_a text2_a stop)
    (h1 : text1_a <:+: text1) (h2 : text2_a <:+: text2) : Excuse checklines text1 text2 stop := by
  have hcount1 := h1.sublist.count_le 10
  have hcount2 := h2.sublist.count_le 10
  have hmany := h.2.2
  exact ⟨h.1.mono h1.length_le h2.length_le, h.2.1, by omega⟩

theorem not_lined_false : ¬ Lined false text1 text2 := fun h => by cases h.1

end Spells

/-- The calls of `diff_main` with so few nested ones give a diff of their texts. -/
def Sound (steps : Nat) (again : DiffMain) : Prop :=
  ∀ text1 text2 checklines, text1.length + text2.length + checklines.toNat < steps →
    text1.length + text2.length + 1 < 2 ^ 31 →
    Settles (Excuse checklines text1 text2) (Spells checklines text1 text2)
      (again text1 text2 checklines)

section Sound

variable {steps : Nat} {again : DiffMain} {text1 text2 : Bytes} {checklines : Bool}

/-- A nested call for parts of the texts that does not compare lines. -/
theorem Sound.plain (h : Sound steps again) {excuse : Stop → Prop}
    (hsteps : text1.length + text2.length < steps)
    (hlength : text1.length + text2.length + 1 < 2 ^ 31) :
    Settles excuse (fun diffs => oldText diffs = text1 ∧ newText diffs = text2)
      (again text1 text2 false) :=
  (h text1 text2 false hsteps hlength).imp (fun _ hstop => absurd hstop.1 not_lined_false)
    fun _ hspells => ⟨hspells.old not_lined_false, hspells.new⟩

/-- Before an equality, the edits are diffed again. -/
theorem rediff_equal (hagain : Sound steps again) {front run : Diffs} {cur : Diff}
    {excuse : Stop → Prop} (hcur : cur.operation = .equal)
    (hsteps : (oldText run).length + (newText run).length < steps)
    (hlength : (oldText run).length + (newText run).length + 1 < 2 ^ 31) :
    Settles excuse
      (fun after => ∃ before, after = (before ++ [cur], []) ∧ Same before (front ++ run))
      (rediff again (front, run) cur) := by
  simp only [rediff, if_pos hcur]
  split
  · refine (hagain.plain hsteps hlength).bind fun diffs hdiffs => ?_
    refine Settles.pure ⟨front ++ diffs, rfl, (Same.refl front).append ⟨hdiffs.1, hdiffs.2⟩⟩
  · exact Settles.pure ⟨front ++ run, rfl, Same.refl _⟩

/-- The texts of a part of a list. -/
theorem length_texts_le {front run done diffs rest : Diffs} (hsame : Same (front ++ run) done)
    (hdiffs : done ++ rest = diffs) : (oldText run).length ≤ (oldText diffs).length ∧
      (newText run).length ≤ (newText diffs).length := by
  rw [← hdiffs, oldText_append, newText_append, ← hsame.old, ← hsame.new, oldText_append,
    newText_append]
  simp only [List.length_append]
  omega

/-- The loop of line mode keeps the texts. -/
theorem foldlM_rediff (hagain : Sound steps again) {excuse : Stop → Prop} {diffs : Diffs}
    (hsteps : (oldText diffs).length + (newText diffs).length < steps)
    (hlength : (oldText diffs).length + (newText diffs).length + 1 < 2 ^ 31) :
    Settles excuse (fun state => Same (state.1 ++ state.2) diffs)
      (diffs.foldlM (rediff again) ([], [])) := by
  refine Settles.foldlM (R := fun (done : Diffs) (state : Diffs × Diffs) =>
    Same (state.1 ++ state.2) done) (Same.refl []) ?_
  intro done cur rest hdiffs state hsame
  obtain ⟨front, run⟩ := state
  simp only at hsame
  have hle := length_texts_le hsame hdiffs
  by_cases hcur : cur.operation = .equal
  · refine (rediff_equal hagain hcur (by omega) (by omega)).imp (fun _ h => h)
      fun after hafter => ?_
    obtain ⟨before, rfl, hbefore⟩ := hafter
    rw [List.append_nil]
    exact (hbefore.trans hsame).append (Same.refl [cur])
  · simp only [rediff, if_neg hcur]
    refine Settles.pure ?_
    rw [← List.append_assoc]
    exact hsame.append (Same.refl [cur])

/-- **Line mode** gives a diff of the new text, and of an old one of the same length, if there are
less than 128 different lines. -/
theorem lineMode_spec (hagain : Sound steps again) (hsteps : text1.length + text2.length < steps)
    (hlength : text1.length + text2.length + 1 < 2 ^ 31) :
    Settles (fun stop => 128 ≤ differentLines text1 text2 ∧ stop = .outside)
      (fun diffs => differentLines text1 text2 < 128 ∧ newText diffs = text2 ∧
        (oldText diffs).length = text1.length) (lineMode again text1 text2) := by
  obtain ⟨table, hlines, htable, hsize, hmany⟩ := linesToChars_spec text1 text2
  have hlines1 := length_linesOf_le text1
  have hlines2 := length_linesOf_le text2
  unfold lineMode
  simp only [hlines]
  refine (hagain.plain (by simp only [List.length_map]; omega)
    (by simp only [List.length_map]; omega)).bind fun diffs hdiffs => ?_
  rw [← hsize]
  rcases charsToLines_spec htable hmany hdiffs.1 hdiffs.2 with
    ⟨hfew, decoded, hdecoded, hold, hnew⟩ | ⟨hover, hout⟩
  · obtain ⟨cleaned, hcleaned, hnew', hold'⟩ := cleanupSemantic_new decoded
    rw [hold] at hold'
    rw [hnew] at hnew'
    simp only [hdecoded, untimed_ok, pure_bind, hcleaned, orThrow, List.foldlM_append, bind_assoc]
    refine (foldlM_rediff hagain (by rw [hold', hnew']; omega) (by rw [hold', hnew']; omega)).bind
      fun state hsame => ?_
    obtain ⟨front, run⟩ := state
    simp only at hsame
    have hle := length_texts_le hsame (List.append_nil cleaned)
    rw [hold', hnew'] at hle
    rw [List.foldlM_cons, bind_assoc]
    refine (rediff_equal hagain rfl (by omega) (by omega)).bind fun after hafter => ?_
    obtain ⟨before, rfl, hbefore⟩ := hafter
    -- the dummy is the last one
    rw [List.foldlM_nil, pure_bind]
    simp only [List.append_nil, List.dropLast_concat]
    have hall := hbefore.trans hsame
    exact Settles.pure ⟨hfew, hall.new.trans hnew', by rw [hall.old, hold']⟩
  · rw [hout]
    exact Settles.throw ⟨hover, rfl⟩

/-- Both parts of the texts are diffed. -/
theorem bisectSplit_spec (hagain : Sound steps again) {excuse : Stop → Prop} {x y : Int}
    (hsplit : Between text1.length text2.length x y) (hsteps : text1.length + text2.length ≤ steps)
    (hlength : text1.length + text2.length + 1 < 2 ^ 31) :
    Settles excuse (fun diffs => oldText diffs = text1 ∧ newText diffs = text2)
      (bisectSplit again text1 text2 x y) := by
  unfold Between at hsplit
  have hmid1 : safeMid text1 x = .ok (text1.drop x.toNat) := if_pos (by omega)
  have hmid2 : safeMid text2 y = .ok (text2.drop y.toNat) := if_pos (by omega)
  have hsub1 : substr text1 x = text1.take x.toNat := if_neg (by omega)
  have hsub2 : substr text2 y = text2.take y.toNat := if_neg (by omega)
  unfold bisectSplit
  simp only [hmid1, hmid2, hsub1, hsub2, untimed_ok, pure_bind]
  refine (hagain.plain ?_ ?_).bind fun diffs hdiffs => ?_
  · rw [List.length_take, List.length_take]
    omega
  · rw [List.length_take, List.length_take]
    omega
  refine (hagain.plain ?_ ?_).bind fun diffs_b hdiffs_b => ?_
  · rw [List.length_drop, List.length_drop]
    omega
  · rw [List.length_drop, List.length_drop]
    omega
  refine Settles.pure ?_
  rw [oldText_append, newText_append, hdiffs.1, hdiffs.2, hdiffs_b.1, hdiffs_b.2,
    List.take_append_drop, List.take_append_drop]
  exact ⟨rfl, rfl⟩

theorem bisect_spec (hagain : Sound steps again) {excuse : Stop → Prop}
    (hstripped : Stripped text1 text2) (hlength1 : 2 ≤ text1.length) (hlength2 : 2 ≤ text2.length)
    (hsteps : text1.length + text2.length ≤ steps)
    (hlength : text1.length + text2.length + 1 < 2 ^ 31) :
    Settles excuse (fun diffs => oldText diffs = text1 ∧ newText diffs = text2)
      (bisect again text1 text2) := by
  obtain ⟨hfirst, hlast⟩ := hstripped (List.ne_nil_of_length_pos (by omega))
    (List.ne_nil_of_length_pos (by omega))
  have hfind := findSplit_spec hlength1 hlength2 hlength hfirst hlast
  unfold bisect
  refine (hfind.imp (fun _ h => h.elim) fun _ h => h).bind fun result hresult => ?_
  cases result with
  | some split => exact bisectSplit_spec hagain (hresult split rfl) hsteps hlength
  | none => exact Settles.pure ⟨by simp, by simp⟩

/-- The rest of `diff_compute`, for texts of two characters or more. -/
theorem computeRest_spec (hagain : Sound steps again) (hstripped : Stripped text1 text2)
    (hlength1 : 2 ≤ text1.length) (hlength2 : 2 ≤ text2.length)
    (hsteps : text1.length + text2.length + checklines.toNat ≤ steps)
    (hlength : text1.length + text2.length + 1 < 2 ^ 31) :
    Settles (Excuse checklines text1 text2) (Spells checklines text1 text2)
      (computeRest again text1 text2 checklines) := by
  have hplain : Settles (Excuse checklines text1 text2) (Spells checklines text1 text2)
      (if checklines ∧ 100 < text1.length ∧ 100 < text2.length then lineMode again text1 text2
        else bisect again text1 text2) := by
    split
    · rename_i hlined
      have hsteps' := hsteps
      rw [hlined.1, Bool.toNat_true] at hsteps'
      refine (lineMode_spec hagain (by omega) hlength).imp (fun stop hstop => ?_)
        fun diffs hdiffs => ?_
      · have hmany := differentLines_le text1 text2
        exact ⟨hlined, hstop.2, by omega⟩
      · exact ⟨hdiffs.2.1, hdiffs.2.2, fun hshort => absurd hlined hshort⟩
    · exact (bisect_spec hagain hstripped hlength1 hlength2 (by omega) hlength).imp
        (fun _ h => h) fun _ h => spells_of_eq h.1 h.2
  have hhalf : ∀ hm, halfMatch text1 text2 = some hm →
      Settles (Excuse checklines text1 text2) (Spells checklines text1 text2) (do
        let diffs ← again hm.text1_a hm.text2_a checklines
        let diffs_b ← again hm.text1_b hm.text2_b checklines
        return diffs ++ ⟨.equal, hm.mid_common⟩ :: diffs_b) := by
    intro hm hfound
    obtain ⟨hfits, hmid⟩ := halfMatch_fits hfound
    obtain ⟨first, second⟩ := hfits
    have hpos := List.length_pos_of_ne_nil hmid
    have hlen1 := congrArg List.length first
    have hlen2 := congrArg List.length second
    rw [List.length_append, List.length_append] at hlen1 hlen2
    have hfront : ∀ {text a b : Bytes}, text = a ++ (hm.mid_common ++ b) → a <:+: text :=
      fun heq => heq ▸ (List.prefix_append _ _).isInfix
    have hback : ∀ {text a b : Bytes}, text = a ++ (hm.mid_common ++ b) → b <:+: text :=
      fun heq => heq ▸ ((List.suffix_append _ _).trans (List.suffix_append _ _)).isInfix
    refine ((hagain hm.text1_a hm.text2_a checklines (by omega) (by omega)).imp
      (fun _ h => h.mono (hfront first) (hfront second)) fun _ h => h).bind fun diffs hdiffs => ?_
    refine ((hagain hm.text1_b hm.text2_b checklines (by omega) (by omega)).imp
      (fun _ h => h.mono (hback first) (hback second)) fun _ h => h).bind fun diffs_b hdiffs_b => ?_
    have hall := hdiffs.append ((spells_equal hm.mid_common).append hdiffs_b)
    rw [← first, ← second] at hall
    exact Settles.pure hall
  have hclock : Settles (Excuse checklines text1 text2) (fun _ => True) (get : Timed Clock) :=
    fun clock => Or.inl ⟨clock, clock, rfl, trivial⟩
  unfold computeRest
  refine hclock.bind fun clock _ => ?_
  dsimp only
  cases hfound : if clock.isSome then halfMatch text1 text2 else none with
  | some hm =>
      rw [Option.ite_none_right_eq_some] at hfound
      exact hhalf hm hfound.2
  | none => exact hplain

/-- The longer text around the shorter one. -/
theorem around_indexOf {longtext shorttext : Bytes} {i : Nat}
    (h : Search.indexOf shorttext longtext 0 = some i) :
    longtext.take i ++ (shorttext ++ longtext.drop (i + shorttext.length)) = longtext := by
  rw [Search.indexOf_eq (Nat.zero_le _), Option.map_eq_some_iff] at h
  obtain ⟨⟨front, back⟩, hcut, rfl⟩ := h
  have htext := Delimited.eq_of_cut hcut
  rw [List.drop_zero, List.append_assoc] at htext
  rw [htext, Nat.zero_add, List.take_left, ← List.drop_drop, List.drop_left, List.drop_left]

/-- **`diff_compute`** gives a diff of texts that have nothing in common at their ends. -/
theorem compute_spec (hagain : Sound steps again) (hstripped : Stripped text1 text2)
    (hsteps : text1.length + text2.length + checklines.toNat ≤ steps)
    (hlength : text1.length + text2.length + 1 < 2 ^ 31) :
    Settles (Excuse checklines text1 text2) (Spells checklines text1 text2)
      (compute again text1 text2 checklines) := by
  unfold compute
  by_cases hempty1 : text1 = []
  · rw [if_pos hempty1]
    exact Settles.pure (spells_of_eq (by simp [hempty1]) (by simp))
  by_cases hempty2 : text2 = []
  · rw [if_neg hempty1, if_pos hempty2]
    exact Settles.pure (spells_of_eq (by simp) (by simp [hempty2]))
  have hpos1 := List.length_pos_of_ne_nil hempty1
  have hpos2 := List.length_pos_of_ne_nil hempty2
  rw [if_neg hempty1, if_neg hempty2]
  by_cases hlonger : text2.length < text1.length
  · simp only [if_pos hlonger]
    cases hfound : Search.indexOf text2 text1 0 with
    | some i =>
        refine Settles.pure (spells_of_eq ?_ (by simp))
        simpa using around_indexOf hfound
    | none =>
        by_cases hone : text2.length = 1
        · simp only [if_pos hone]
          exact Settles.pure (spells_of_eq (by simp) (by simp))
        · simp only [if_neg hone]
          exact computeRest_spec hagain hstripped (by omega) (by omega) hsteps hlength
  · simp only [if_neg hlonger]
    cases hfound : Search.indexOf text1 text2 0 with
    | some i =>
        refine Settles.pure (spells_of_eq (by simp) ?_)
        simpa using around_indexOf hfound
    | none =>
        by_cases hone : text1.length = 1
        · simp only [if_pos hone]
          exact Settles.pure (spells_of_eq (by simp) (by simp))
        · simp only [if_neg hone]
          exact computeRest_spec hagain hstripped (by omega) (by omega) hsteps hlength

end Sound

/-- The texts are what is between their common ends, and these. -/
theorem around_stripped (text1 text2 : Bytes) :
    let front := commonPrefix text1 text2
    let back := commonSuffix (text1.drop front) (text2.drop front)
    text1.take front ++ (chop (text1.drop front) back ++ right (text1.drop front) back) = text1 ∧
      text1.take front ++ (chop (text2.drop front) back ++ right (text1.drop front) back) =
        text2 := by
  intro front back
  constructor
  · rw [chop_append_right, List.take_append_drop]
  · rw [right_commonSuffix, chop_append_right, take_commonPrefix, List.take_append_drop]

/-- The common ends are equalities, unless they are empty. -/
theorem spells_restored {checklines : Bool} {text1 text2 : Bytes} {diffs : Diffs}
    (h : Spells checklines text1 text2 diffs) (front back : Bytes) :
    Spells checklines (front ++ (text1 ++ back))
      (front ++ (text2 ++ back))
      (let diffs := if front = [] then diffs else ⟨.equal, front⟩ :: diffs
       if back = [] then diffs else diffs ++ [⟨.equal, back⟩]) := by
  have hfront : Spells checklines (front ++ text1) (front ++ text2)
      (if front = [] then diffs else ⟨.equal, front⟩ :: diffs) := by
    split
    · rename_i hempty
      rwa [hempty]
    · exact (spells_equal front).append h
  rw [← List.append_assoc, ← List.append_assoc]
  dsimp only
  split
  · rename_i hempty
    rwa [hempty, List.append_nil, List.append_nil]
  · exact hfront.append (spells_equal back)

/-- **`diff_main`**, by induction on the calls that may be nested. -/
theorem diffMain_sound (steps : Nat) : Sound steps (diffMain steps) := by
  induction steps with
  | zero => exact fun text1 text2 checklines hsteps => absurd hsteps (Nat.not_lt_zero _)
  | succ steps ih =>
      intro text1 text2 checklines hsteps hlength
      rw [diffMain]
      by_cases heq : text1 = text2
      · rw [if_pos heq, ← heq]
        split
        · rename_i hempty
          exact Settles.pure (spells_of_eq hempty.symm hempty.symm)
        · exact Settles.pure (spells_equal text1)
      rw [if_neg heq]
      have hstripped := stripped text1 text2
      obtain ⟨htext1, htext2⟩ := around_stripped text1 text2
      obtain ⟨front, hfront⟩ : ∃ front, commonPrefix text1 text2 = front := ⟨_, rfl⟩
      obtain ⟨back, hback⟩ : ∃ back, commonSuffix (text1.drop front) (text2.drop front) = back :=
        ⟨_, rfl⟩
      simp only [hfront, hback] at hstripped htext1 htext2 ⊢
      have hlength1 := congrArg List.length htext1
      have hlength2 := congrArg List.length htext2
      rw [List.length_append, List.length_append] at hlength1 hlength2
      have hinside : ∀ {text before middle behind : Bytes},
          before ++ (middle ++ behind) = text → middle <:+: text := by
        intro text before middle behind h
        exact ⟨before, behind, by rw [List.append_assoc, h]⟩
      refine ((compute_spec ih hstripped (by omega) (by omega)).imp
        (fun _ h => h.mono (hinside htext1) (hinside htext2)) fun _ h => h).bind
          fun diffs hdiffs => ?_
      have hrestored := spells_restored hdiffs (text1.take front) (right (text1.drop front) back)
      rw [htext1, htext2] at hrestored
      obtain ⟨after, hafter, hsame, -⟩ := cleanupMerge_spec _
      rw [hafter]
      exact Settles.pure (hrestored.of_same hsame)

/-- **A diff of two texts** that are not long or that are diffed without their lines: wherever the
deadline passes, `diff_main` comes to its end without an exception or an access outside of a text or
a vector, with a list that spells both texts. -/
theorem diffMain_spells_both (steps : Nat) (text1 text2 : Bytes) (checklines : Bool) (clock : Clock)
    (hlined : ¬ Lined checklines text1 text2)
    (hsteps : text1.length + text2.length + 1 < steps)
    (hlength : text1.length + text2.length + 1 < 2 ^ 31) :
    ∃ diffs last, (diffMain steps text1 text2 checklines).run clock = .ok diffs last ∧
      oldText diffs = text1 ∧ newText diffs = text2 := by
  have htoNat := Bool.toNat_le checklines
  rcases diffMain_sound steps text1 text2 checklines (by omega) hlength clock with
    ⟨diffs, last, hrun, hspells⟩ | ⟨stop, last, -, hexcuse⟩
  · exact ⟨diffs, last, hrun, hspells.old hlined, hspells.new⟩
  · exact absurd hexcuse.1 hlined

theorem diffMain_spells_both_small :
    ∃ diffs last, (diffMain 8 [97, 98, 99] [98, 100, 99] true).run (some 1) = .ok diffs last ∧
      oldText diffs = [97, 98, 99] ∧ newText diffs = [98, 100, 99] :=
  diffMain_spells_both 8 [97, 98, 99] [98, 100, 99] true (some 1)
    (fun hlined => absurd hlined.2.1 (by decide)) (by decide) (by decide)

/-- **A diff of two long texts by their lines**: `diff_main` comes to its end without an exception,
with a list that spells the new text and an old one of the same length. Only where the texts have
more than 125 ends of lines, an access outside of the array of lines may stop it. -/
theorem diffMain_spells_new (steps : Nat) (text1 text2 : Bytes) (clock : Clock)
    (hsteps : text1.length + text2.length + 1 < steps)
    (hlength : text1.length + text2.length + 1 < 2 ^ 31) :
    (∃ diffs last, (diffMain steps text1 text2 true).run clock = .ok diffs last ∧
      newText diffs = text2 ∧ (oldText diffs).length = text1.length) ∨
    ∃ last, (diffMain steps text1 text2 true).run clock = .error .outside last ∧
      125 < text1.count 10 + text2.count 10 := by
  rcases diffMain_sound steps text1 text2 true hsteps hlength clock with
    ⟨diffs, last, hrun, hspells⟩ | ⟨stop, last, hrun, hlined, rfl, hmany⟩
  · exact Or.inl ⟨diffs, last, hrun, hspells.new, hspells.length⟩
  · exact Or.inr ⟨last, hrun, hmany⟩

/-- Sixty lines of one letter. -/
def sixtyLines (letter : UInt8) : Bytes := (List.replicate 60 [letter, 10]).flatten

/-- Two texts that are long enough for their lines to be compared, with few ends of lines. -/
theorem diffMain_spells_new_lines : Lined true (sixtyLines 97) (sixtyLines 98) ∧
    ∃ diffs last, (diffMain 250 (sixtyLines 97) (sixtyLines 98) true).run (some 1) =
        .ok diffs last ∧
      newText diffs = sixtyLines 98 ∧ (oldText diffs).length = 120 := by
  refine ⟨⟨rfl, by decide, by decide⟩, ?_⟩
  rcases diffMain_spells_new 250 (sixtyLines 97) (sixtyLines 98) (some 1) (by decide) (by decide)
    with hends | ⟨last, -, hmany⟩
  · exact hends
  · exact absurd hmany (by decide)

/-- **Comparing lines** succeeds exactly if the texts have less than 128 different lines. If there
are more, the decoding accesses what is outside of the array of lines: a character is a signed byte.
-/
theorem lineMode_ends_iff_few (steps : Nat) (text1 text2 : Bytes) (clock : Clock)
    (hsteps : text1.length + text2.length < steps)
    (hlength : text1.length + text2.length + 1 < 2 ^ 31) :
    (differentLines text1 text2 < 128 ∧
      ∃ diffs last, (lineMode (diffMain steps) text1 text2).run clock = .ok diffs last ∧
        newText diffs = text2 ∧ (oldText diffs).length = text1.length) ∨
    128 ≤ differentLines text1 text2 ∧
      ∃ last, (lineMode (diffMain steps) text1 text2).run clock = .error .outside last := by
  rcases lineMode_spec (diffMain_sound steps) hsteps hlength clock with
    ⟨diffs, last, hrun, hfew, hnew, hold⟩ | ⟨stop, last, hrun, hmany, rfl⟩
  · exact Or.inl ⟨hfew, diffs, last, hrun, hnew, hold⟩
  · exact Or.inr ⟨hmany, last, hrun⟩

theorem lineMode_ends_iff_few_small :
    (differentLines [97, 10] [98] < 128 ∧
      ∃ diffs last, (lineMode (diffMain 4) [97, 10] [98]).run none = .ok diffs last ∧
        newText diffs = [98] ∧ (oldText diffs).length = 2) ∨
    128 ≤ differentLines [97, 10] [98] ∧
      ∃ last, (lineMode (diffMain 4) [97, 10] [98]).run none = .error .outside last :=
  lineMode_ends_iff_few 4 [97, 10] [98] none (by decide) (by decide)

end AnarchNet.DiffMatchPatch
