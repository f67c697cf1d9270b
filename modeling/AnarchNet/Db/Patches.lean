import AnarchNet.Archive
import AnarchNet.DiffMatchPatch.Apply
import AnarchNet.DiffMatchPatch.PatchText

/-!
# The patches of objects

`diff_match_patch` as the library of the object code. A patch between two contents is made with
`patch_make` and written with `patch_toText`; it is read with `patch_fromText` and applied with
`patch_apply`. What `patch_make` makes of an insertion is worked out.
-/

namespace AnarchNet

open FileSystem EditScript Native EStateM

namespace DiffMatchPatch

/-- `patch_toText` of `patch_make`, with all the steps that it may take. -/
def patchBetween (clock : Clock) (old new : Bytes) : Option Bytes :=
  match (patchMake (old.length + new.length + 2) old new).run clock with
  | .ok patches _ => (patchToText patches).toOption
  | .error _ _ => none

/-- The library that the object code uses. Each call of `patch_make` has a clock of its own. -/
def library (clock : Bytes → Bytes → Clock) : Db.Library where
  patch old new := patchBetween (clock old new) old new
  save := Archive.writeObject
  load := Archive.load
  load_save := Archive.load_writeObject

/-- `patch_apply` of what `patch_fromText` reads, where an exception of `patch_apply` is told as a
text. -/
def Inexact.dmp (inexact : Inexact) (what : Stop → Bytes) (patch text : Bytes) :
    Except Bytes Bytes :=
  match patchFromText patch with
  | .error message => .error message
  | .ok patches =>
      match inexact.patchApply patches text with
      | .ok (result, _) => .ok result
      | .error stop => .error (what stop)

section Between

variable {clock : Clock} {old new text : Bytes} {patches : List Patch}

/-- The text that is written for the patches that are made. -/
theorem patchBetween_eq_some {last : Clock}
    (hmake : (patchMake (old.length + new.length + 2) old new).run clock = .ok patches last)
    (htext : patchToText patches = .ok text) : patchBetween clock old new = some text := by
  rw [patchBetween, hmake]
  simp only [htext]
  rfl

/-- **A patch is made** between all texts that are not huge and do not have many lines. -/
theorem patchBetween_isSome (clock : Clock) (hsize : 12 * (old.length + new.length) < 2 ^ 31)
    (hlines : old.count 10 + new.count 10 ≤ 125) : (patchBetween clock old new).isSome = true := by
  rcases patchMake_settles (old.length + new.length + 2) old new (by omega) (by omega) clock with
    ⟨patches, last, hrun, diffs, rfl, hold, hpatches⟩ | ⟨stop, last, hrun, -, rfl, hmany⟩
  · obtain ⟨made, hmade, hbounded⟩ := makePatches_bounded hold.symm
    obtain rfl : made = patches := Except.ok.inj (hmade.symm.trans hpatches)
    have htext := patchToText_eq_ok_iff.2 ⟨fitsInt_of_bounded hbounded hsize, rfl⟩
    rw [patchBetween_eq_some hrun htext]
    rfl
  · omega

/-- A patch that is read back and fits is applied. -/
theorem Inexact.dmp_eq_ok {result : Bytes} (inexact : Inexact) (what : Stop → Bytes)
    (hread : patchFromText text = .ok patches)
    (hfits : Replaces (addPadding patches) (padded old) (padded result)) :
    inexact.dmp what text old = .ok result := by
  rw [Inexact.dmp, hread]
  simp only [hfits.patchApply inexact]

end Between

/-! ## Texts of one letter -/

/-- **A text that does not change** has the empty patch text. -/
theorem patchBetween_self (clock : Clock) (text : Bytes) :
    patchBetween clock text text = some [] := by
  have hmain : diffMain (text.length + text.length + 1 + 1) text text true =
      pure (if text = [] then [] else [⟨.equal, text⟩]) := by rw [diffMain, if_pos rfl]
  refine @patchBetween_eq_some clock text text [] [] clock ?_ rfl
  rw [patchMake, hmain, pure_bind]
  by_cases hempty : text = []
  · rw [hempty]
    rfl
  · have hmake : makePatches text [⟨.equal, text⟩] = .ok [] := by
      rw [makePatches, if_neg (List.cons_ne_nil _ _), List.foldlM_cons, Making.step_equal]
      have hgrown : (Making.start text).grown [⟨.equal, text⟩] ⟨.equal, text⟩ = Patch.new :=
        if_neg fun h => h.2.1 rfl
      simp only [hgrown]
      split <;> rfl
    simp only [if_neg hempty]
    rw [if_neg (by simp)]
    simp only [pure_bind, hmake]
    rfl

/-- A letter that is replaced or goes. -/
theorem diffMain_letter {a : UInt8} {new : Bytes} (hne : [a] ≠ new) (hnew : new.length ≤ 1)
    (steps : Nat) (checklines : Bool) : diffMain (steps + 1) [a] new checklines =
      pure (⟨.delete, [a]⟩ :: if new = [] then [] else [⟨.insert, new⟩]) := by
  rw [diffMain, if_neg hne]
  cases new with
  | nil =>
      have hmerge : cleanupMerge [⟨.delete, [a]⟩] = some [⟨.delete, [a]⟩] :=
        @cleanupMerge_eq_some [⟨.delete, [a]⟩] [⟨.delete, [a]⟩] rfl rfl
      simp [commonPrefix, commonSuffix, chop, right, compute, hmerge, orThrow]
  | cons b rest =>
      obtain rfl : rest = [] := by simpa using hnew
      have hab : a ≠ b := fun h => hne (by rw [h])
      have hpass : mergePass [⟨.delete, [a]⟩, ⟨.insert, [b]⟩] =
          some [⟨.delete, [a]⟩, ⟨.insert, [b]⟩] := by
        simp [mergePass, mergeStep, dummy, mergeRun, growEqual, insertMerged, commonPrefix,
          commonSuffix, hab.symm, chop, right, popEmpty, oldText, newText]
      have hmerge : cleanupMerge [⟨.delete, [a]⟩, ⟨.insert, [b]⟩] =
          some [⟨.delete, [a]⟩, ⟨.insert, [b]⟩] := cleanupMerge_eq_some hpass rfl
      have hfind : Search.indexOf [a] [b] 0 = none := by
        rw [Search.indexOf_eq (Nat.zero_le _), List.drop_zero, Option.map_eq_none_iff]
        simp [Delimited.cut, hab]
      simp [commonPrefix, commonSuffix, chop, right, compute, hmerge, orThrow, hab, hfind]

/-! ## One insertion -/

/-- The diffs of an insertion between two equalities, which may be empty. -/
def inserted (front text back : Bytes) : Diffs :=
  (if front = [] then [] else [⟨.equal, front⟩]) ++
    ⟨.insert, text⟩ :: if back = [] then [] else [⟨.equal, back⟩]

section Inserted

variable {front text back : Bytes}

/-- **One insertion** is found by what is common to both texts at their ends. -/
theorem diffMain_insertion (hne : text ≠ [])
    (hfront : commonPrefix (front ++ back) (front ++ (text ++ back)) = front.length)
    (hback : commonSuffix back (text ++ back) = back.length)
    (hmerge : cleanupMerge (inserted front text back) = some (inserted front text back))
    (steps : Nat) (checklines : Bool) :
    diffMain (steps + 1) (front ++ back) (front ++ (text ++ back)) checklines =
      pure (inserted front text back) := by
  have hdiffer : front ++ back ≠ front ++ (text ++ back) := by
    intro heq
    have hlength := congrArg List.length heq
    have hpos := List.length_pos_of_ne_nil hne
    simp only [List.length_append] at hlength
    omega
  have hold : chop back back.length = [] := by rw [chop, Nat.sub_self, List.take_zero]
  have hnew : chop (text ++ back) back.length = text := by
    rw [chop, List.length_append, Nat.add_sub_cancel, List.take_left]
  have hright : right back back.length = back := by rw [right, Nat.sub_self, List.drop_zero]
  have hdiffs : (if back = [] then (if front = [] then [⟨.insert, text⟩]
        else ⟨.equal, front⟩ :: [⟨.insert, text⟩] : Diffs)
      else (if front = [] then [⟨.insert, text⟩]
        else ⟨.equal, front⟩ :: [⟨.insert, text⟩] : Diffs) ++ [⟨.equal, back⟩]) =
      inserted front text back := by
    unfold inserted
    by_cases hf : front = [] <;> by_cases hb : back = [] <;> simp [hf, hb]
  rw [diffMain, if_neg hdiffer]
  simp only [hfront, List.drop_left, List.take_left, hback, hold, hnew, hright, compute, if_true,
    pure_bind, hdiffs, hmerge, orThrow]

/-- **The patch of one insertion.** -/
theorem patchBetween_insertion (clock : Clock) (hne : text ≠ [])
    (hfront : commonPrefix (front ++ back) (front ++ (text ++ back)) = front.length)
    (hback : commonSuffix back (text ++ back) = back.length)
    (hmerge : cleanupMerge (inserted front text back) = some (inserted front text back))
    (hclean : 2 < (inserted front text back).length →
      (cleanupSemantic (inserted front text back)).bind cleanupEfficiency =
        some (inserted front text back)) {patches : List Patch}
    (hpatches : makePatches (front ++ back) (inserted front text back) = .ok patches)
    {written : Bytes} (hwritten : patchToText patches = .ok written) :
    patchBetween clock (front ++ back) (front ++ (text ++ back)) = some written := by
  refine @patchBetween_eq_some _ _ _ _ _ clock ?_ hwritten
  rw [patchMake, diffMain_insertion hne hfront hback hmerge, pure_bind]
  by_cases hlong : 2 < (inserted front text back).length
  · simp only [if_pos hlong, hclean hlong, orThrow, pure_bind, hpatches]
    rfl
  · simp only [if_neg hlong, pure_bind, hpatches]
    rfl

end Inserted

/-! ## The first patch -/

/-- The patches from the empty text to a text. -/
def firstPatches (content : Bytes) : List Patch :=
  if content = [] then []
  else [⟨[⟨.insert, content⟩], 0, 0, 0, content.length⟩]

section First

variable {content : Bytes}

/-- Merging leaves one insertion alone. -/
theorem cleanupMerge_insertion (content : Bytes) :
    cleanupMerge [⟨.insert, content⟩] = some [⟨.insert, content⟩] :=
  @cleanupMerge_eq_some [⟨.insert, content⟩] [⟨.insert, content⟩] rfl rfl

/-- **The first patch** is one insertion. -/
theorem run_patchMake_empty (steps : Nat) (content : Bytes) (clock : Clock) :
    (patchMake (steps + 1) [] content).run clock = .ok (firstPatches content) clock := by
  unfold patchMake firstPatches
  by_cases hempty : content = []
  · subst hempty
    rfl
  · have hmain : diffMain (steps + 1) [] content true = pure [⟨.insert, content⟩] := by
      rw [diffMain, if_neg fun heq => hempty heq.symm]
      have hfront : commonPrefix [] content = 0 := by simp [commonPrefix]
      have hback : commonSuffix [] content = 0 := by simp [commonSuffix, commonPrefix]
      simp only [hfront, List.drop_zero, hback, chop, List.length_nil, Nat.sub_zero,
        List.take_length, List.take_nil, right, List.drop_nil, if_true, compute, pure_bind,
        cleanupMerge_insertion, orThrow]
    have hpatches : makePatches [] [⟨.insert, content⟩] =
        .ok [⟨[⟨.insert, content⟩], 0, 0, 0, content.length⟩] := by
      rw [makePatches, if_neg (List.cons_ne_nil _ _), List.foldlM_cons,
        @Making.step_insert [⟨.insert, content⟩] (Making.start []) content (le_refl _) (le_refl _)]
      show Except.ok [(⟨[⟨.insert, content⟩], 0, 0, 0, 0 + content.length⟩ : Patch)] = _
      rw [zero_add]
    have hfew : ¬ 2 < ([⟨.insert, content⟩] : Diffs).length := Nat.not_lt.2 (Nat.le_succ 1)
    rw [hmain, pure_bind, if_neg hempty]
    simp only [if_neg hfew, pure_bind, hpatches]
    rfl

/-- The first patch as it is read back replaces the padded empty text. -/
theorem replaces_firstPatches (content : Bytes) :
    Replaces (addPadding ((firstPatches content).map plainPatch)) (padded [])
      (padded (content.filter (· < 128))) := by
  unfold firstPatches
  by_cases hempty : content = []
  · rw [if_pos hempty, hempty]
    exact .nil _
  · rw [if_neg hempty]
    obtain ⟨plain, hplain⟩ : ∃ plain, content.filter (· < 128) = plain := ⟨_, rfl⟩
    -- the insertion between both paddings
    obtain ⟨patch, hpatch⟩ : ∃ patch : Patch,
        patch = ⟨[⟨.equal, nullPadding⟩, ⟨.insert, plain⟩, ⟨.equal, nullPadding⟩], 0, 0, 8,
          content.length + 4 + 4⟩ := ⟨_, rfl⟩
    have hadded : addPadding ([⟨[⟨.insert, content⟩], 0, 0, 0, content.length⟩].map plainPatch) =
        [patch] := by
      rw [hpatch, ← hplain]
      rfl
    have hold : padded [] = [] ++ (oldText patch.diffs ++ []) := by
      rw [hpatch]
      rfl
    have hnew : padded plain = [] ++ (newText patch.diffs ++ []) := by
      rw [hpatch]
      simp [padded]
    rw [hadded, hplain, hold, hnew]
    refine .cons ?_ ?_ ?_ (.nil _)
    · rw [hpatch]
      rfl
    · rw [hpatch]
      rfl
    · rw [hpatch]
      show (8 : Int) ≤ 32
      decide

/-- The first patch is made if an `int` holds the number of characters that it encodes. -/
theorem patchBetween_empty (clock : Clock) (h : encodedLength content < 2 ^ 31) :
    patchBetween clock [] content = some (escapedPatches (firstPatches content)) := by
  refine patchBetween_eq_some (run_patchMake_empty _ content clock)
    (patchToText_eq_ok_iff.2 ⟨fun patch hpatch diff hdiff => ?_, rfl⟩)
  unfold firstPatches at hpatch
  split at hpatch
  · cases hpatch
  · rw [List.mem_singleton.1 hpatch, List.mem_singleton] at hdiff
    rw [hdiff]
    exact h

/-- The numbers of the first patch fit into an `int`. -/
theorem printable_firstPatches (h : content.length < 2 ^ 31) :
    ∀ patch ∈ firstPatches content, patch.Printable := by
  intro patch hpatch
  unfold firstPatches at hpatch
  split at hpatch
  · cases hpatch
  · rw [List.mem_singleton.1 hpatch]
    refine ⟨?_, ?_, ?_, ?_⟩ <;> dsimp only <;> omega

/-- The text of the first patch is not much longer than the encoded content. -/
theorem length_firstPatches_le (h : content.length < 2 ^ 31) :
    (escapedPatches (firstPatches content)).length ≤ 12 * content.length + 54 := by
  have hprintable := printable_firstPatches h
  unfold firstPatches at hprintable ⊢
  split
  · exact Nat.zero_le _
  · rename_i hne
    rw [if_neg hne] at hprintable
    have hescaped := length_escaped_le content
    have hhead := length_headLine_le (hprintable _ List.mem_cons_self)
    simp only [escapedPatches, escapedLine, List.flatMap_singleton, List.length_append,
      List.length_cons, List.length_nil]
    omega

/-- **The first patch** of a content makes the content without the characters that are not ASCII. -/
theorem dmp_firstPatches (inexact : Inexact) (what : Stop → Bytes) {text : Bytes}
    (htext : patchToText (firstPatches content) = .ok text)
    (hsize : 12 * content.length + 54 < 2 ^ 31) :
    inexact.dmp what text [] = .ok (content.filter (· < 128)) := by
  have hprintable := @printable_firstPatches content (by omega)
  have hlength : text.length < 2 ^ 31 := by
    rw [(patchToText_eq_ok_iff.1 htext).2]
    have hle := @length_firstPatches_le content (by omega)
    omega
  exact inexact.dmp_eq_ok what (patchFromText_patchToText hprintable htext hlength)
    (replaces_firstPatches content)

end First

end DiffMatchPatch

end AnarchNet
