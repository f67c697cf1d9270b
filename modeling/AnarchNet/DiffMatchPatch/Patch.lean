import AnarchNet.DiffMatchPatch.Diff

/-!
# Patches

`patch_make` and `patch_addContext` of `diff_match_patch.h`. A patch has the diffs between two
equalities that are long, and some of the text around them. Each patch is for the text that the
patches before it have made.
-/

namespace AnarchNet.DiffMatchPatch

open FileSystem EditScript Native EStateM

/-- `Patch`. -/
structure Patch where
  diffs : Diffs
  start1 : Int
  start2 : Int
  length1 : Int
  length2 : Int

namespace Patch

/-- `Patch()`. -/
def new : Patch where
  diffs := []
  start1 := 0
  start2 := 0
  length1 := 0
  length2 := 0

/-- `Patch_Margin`. -/
def margin : Nat := 4

/-- `Match_MaxBits`. -/
def maxBits : Nat := 32

end Patch

/-! ## Context -/

/-- `safeMid` with a length. A negative length is larger than every text. -/
def safeMidLength (text : Bytes) (pos length : Int) : Except Stop Bytes := do
  let rest ← safeMid text pos
  return substr rest length

/-- The loop of `patch_addContext`: while the pattern is found at two places, it grows on both
sides, unless it is long. -/
def growPattern (text : Bytes) (patch : Patch) : Nat → Bytes → Int → Except Stop Int
  | 0, _, _ => throw .running
  | steps + 1, pattern, padding =>
      if (occurrences pattern text).head? ≠ (occurrences pattern text).getLast? ∧
          pattern.length < Patch.maxBits - Patch.margin - Patch.margin then do
        let padding := padding + Patch.margin
        let first := max 0 (patch.start2 - padding)
        let pattern ← safeMidLength text first
          (min (text.length : Int) (patch.start2 + patch.length1 + padding) - first)
        growPattern text patch steps pattern padding
      else return padding

/-- Add the context, roll back the start points and extend the lengths. -/
def Patch.surround (patch : Patch) (front back : Bytes) : Patch where
  diffs :=
    let diffs := if front = [] then patch.diffs else ⟨.equal, front⟩ :: patch.diffs
    if back = [] then diffs else diffs ++ [⟨.equal, back⟩]
  start1 := patch.start1 - front.length
  start2 := patch.start2 - front.length
  length1 := patch.length1 + (front.length + back.length)
  length2 := patch.length2 + (front.length + back.length)

/-- `patch_addContext`. -/
def addContext (patch : Patch) (text : Bytes) : Except Stop Patch :=
  if text = [] then return patch
  else do
    let pattern ← safeMidLength text patch.start2 patch.length1
    let padding ← growPattern text patch (text.length + 1) pattern 0
    -- add one chunk for good luck
    let padding := padding + Patch.margin
    let first := max 0 (patch.start2 - padding)
    let front ← safeMidLength text first (patch.start2 - first)
    let last := patch.start2 + patch.length1
    let back ← safeMidLength text last (min (text.length : Int) (last + padding) - last)
    return patch.surround front back

/-! ## Making patches -/

/-- The variables of the loop of `patch_make`. -/
structure Making where
  patches : List Patch
  patch : Patch
  char_count1 : Int
  char_count2 : Int
  prepatch_text : Bytes
  postpatch_text : Bytes

namespace Making

/-- Their values before the loop. -/
def start (text1 : Bytes) : Making where
  patches := []
  patch := Patch.new
  char_count1 := 0
  char_count2 := 0
  prepatch_text := text1
  postpatch_text := text1

/-- The patch that a diff is added to: at the first edit a new one starts. -/
def opened (state : Making) (cur : Diff) : Patch :=
  if state.patch.diffs = [] ∧ cur.operation ≠ .equal then
    { state.patch with start1 := state.char_count1, start2 := state.char_count2 }
  else state.patch

/-- The patch with an equality. Only a small one inside of a patch is added, which the last one of
the list is not. -/
def grown (diffs : Diffs) (state : Making) (cur : Diff) : Patch :=
  let length := (cur.text.length : Int)
  if length ≤ 2 * Patch.margin ∧ state.patch.diffs ≠ [] ∧ diffs.getLast? ≠ some cur then
    { state.patch with
      diffs := state.patch.diffs ++ [cur]
      length1 := state.patch.length1 + length
      length2 := state.patch.length2 + length }
  else state.patch

/-- Time for a new patch. -/
def close (state : Making) : Except Stop Making := do
  if state.patch.diffs = [] then return state
  else
    let patch ← addContext state.patch state.prepatch_text
    return { state with
      patches := state.patches ++ [patch]
      patch := Patch.new
      prepatch_text := state.postpatch_text
      char_count1 := state.char_count2 }

/-- The branches of `patch_make` for the operation of a diff. -/
def edit (diffs : Diffs) (state : Making) (cur : Diff) : Except Stop Making := do
  let patch := state.opened cur
  let length := (cur.text.length : Int)
  match cur.operation with
  | .insert =>
      let back ← safeMid state.postpatch_text state.char_count2
      return { state with
        patch := { patch with
          diffs := patch.diffs ++ [cur]
          length2 := patch.length2 + length }
        postpatch_text := substr state.postpatch_text state.char_count2 ++ cur.text ++ back }
  | .delete =>
      let back ← safeMid state.postpatch_text (state.char_count2 + length)
      return { state with
        patch := { patch with
          diffs := patch.diffs ++ [cur]
          length1 := patch.length1 + length }
        postpatch_text := substr state.postpatch_text state.char_count2 ++ back }
  | .equal =>
      let state := { state with patch := state.grown diffs cur }
      if 2 * Patch.margin ≤ length then state.close else return state

/-- One turn of the loop of `patch_make`. -/
def step (diffs : Diffs) (state : Making) (cur : Diff) : Except Stop Making := do
  let state ← state.edit diffs cur
  let length := (cur.text.length : Int)
  return { state with
    char_count1 := if cur.operation ≠ .insert then state.char_count1 + length
      else state.char_count1
    char_count2 := if cur.operation ≠ .delete then state.char_count2 + length
      else state.char_count2 }

end Making

/-- `patch_make` for diffs. -/
def makePatches (text1 : Bytes) (diffs : Diffs) : Except Stop (List Patch) :=
  if diffs = [] then return []
  else do
    let state ← diffs.foldlM (Making.step diffs) (Making.start text1)
    -- pick up the leftover patch
    let state ← state.close
    return state.patches

/-- `patch_make` for two texts, with so many nested calls of `diff_main` at most. -/
def patchMake (steps : Nat) (text1 text2 : Bytes) : Timed (List Patch) := do
  let diffs ← diffMain steps text1 text2 true
  let diffs ←
    if 2 < diffs.length then orThrow ((cleanupSemantic diffs).bind cleanupEfficiency)
    else pure diffs
  untimed (makePatches text1 diffs)

/-! ## Where a patch belongs -/

/-- The numbers of the patch are right for a text that has this in front of its old text. -/
structure Patch.Sits (patch : Patch) (front : Bytes) : Prop where
  start1 : patch.start1 = front.length
  start2 : patch.start2 = front.length
  length1 : patch.length1 = (oldText patch.diffs).length
  length2 : patch.length2 = (newText patch.diffs).length

/-- The patch is for a text with this in front of its old text and this behind it. It has enough
context, unless it begins or ends where the text does. -/
structure Patch.Belongs (patch : Patch) (front back : Bytes) : Prop where
  sits : patch.Sits front
  first : front = [] ∨
    ∃ context rest, patch.diffs = ⟨.equal, context⟩ :: rest ∧ Patch.margin ≤ context.length
  last : back = [] ∨
    ∃ rest context, patch.diffs = rest ++ [⟨.equal, context⟩] ∧ Patch.margin ≤ context.length

/-- Patches that lead from one text to another: each belongs to the text that the ones before it
have made. -/
inductive Leads : List Patch → Bytes → Bytes → Prop
  | nil (text : Bytes) : Leads [] text text
  | cons {patch : Patch} {patches : List Patch} {front back last : Bytes}
      (belongs : patch.Belongs front back)
      (rest : Leads patches (front ++ (newText patch.diffs ++ back)) last) :
      Leads (patch :: patches) (front ++ (oldText patch.diffs ++ back)) last

/-- One more patch. -/
theorem Leads.concat {patches : List Patch} {patch : Patch} {first front back : Bytes}
    (h : Leads patches first (front ++ (oldText patch.diffs ++ back)))
    (hpatch : patch.Belongs front back) :
    Leads (patches ++ [patch]) first (front ++ (newText patch.diffs ++ back)) := by
  generalize hmiddle : front ++ (oldText patch.diffs ++ back) = middle at h
  induction h with
  | nil text =>
      rw [← hmiddle]
      exact .cons hpatch (.nil _)
  | cons belongs _ ih => exact .cons belongs (ih hmiddle)

section Context

variable {patch : Patch} {text front back : Bytes}

/-- A context is in both texts of the patch. -/
theorem Patch.texts_surround (patch : Patch) (front back : Bytes) :
    oldText (patch.surround front back).diffs = front ++ (oldText patch.diffs ++ back) ∧
      newText (patch.surround front back).diffs = front ++ (newText patch.diffs ++ back) := by
  have hspells : Spells false (oldText patch.diffs) (newText patch.diffs) patch.diffs :=
    spells_of_eq rfl rfl
  have hwhole := spells_restored hspells front back
  exact ⟨hwhole.old not_lined_false, hwhole.new⟩

theorem Patch.Sits.surround {outer : Bytes} (h : patch.Sits (outer ++ front)) (back : Bytes) :
    (patch.surround front back).Sits outer := by
  obtain ⟨hold, hnew⟩ := patch.texts_surround front back
  have hstart1 := h.start1
  have hstart2 := h.start2
  have hlength1 := h.length1
  have hlength2 := h.length2
  rw [List.length_append] at hstart1 hstart2
  refine ⟨?_, ?_, ?_, ?_⟩
  · show patch.start1 - front.length = outer.length
    omega
  · show patch.start2 - front.length = outer.length
    omega
  · rw [hold, List.length_append, List.length_append]
    show patch.length1 + (front.length + back.length) = _
    omega
  · rw [hnew, List.length_append, List.length_append]
    show patch.length2 + (front.length + back.length) = _
    omega

theorem Patch.first_surround (patch : Patch) (back : Bytes) (hfront : front ≠ []) :
    ∃ rest, (patch.surround front back).diffs = ⟨.equal, front⟩ :: rest := by
  rw [Patch.surround]
  simp only [if_neg hfront]
  split
  · exact ⟨_, rfl⟩
  · exact ⟨_, rfl⟩

theorem Patch.last_surround (patch : Patch) (front : Bytes) (hback : back ≠ []) :
    ∃ rest, (patch.surround front back).diffs = rest ++ [⟨.equal, back⟩] := by
  rw [Patch.surround]
  simp only [if_neg hback]
  exact ⟨_, rfl⟩

theorem safeMid_of_le {pos : Int} (h : 0 ≤ pos) (h' : pos ≤ text.length) :
    safeMid text pos = .ok (text.drop pos.toNat) := if_pos ⟨h, h'⟩

theorem safeMidLength_of_le {pos length : Int} (h : 0 ≤ pos) (h' : pos ≤ text.length)
    (hlength : 0 ≤ length) :
    safeMidLength text pos length = .ok ((text.drop pos.toNat).take length.toNat) := by
  have hsub : substr (text.drop pos.toNat) length = (text.drop pos.toNat).take length.toNat :=
    if_neg (by omega)
  rw [safeMidLength, safeMid_of_le h h', ← hsub]
  rfl

/-- A text is found in itself at its beginning only. -/
theorem mem_occurrences_self {pos : Nat} (h : pos ∈ occurrences text text) : pos = 0 := by
  rw [occurrences, List.mem_filter, List.mem_range, decide_eq_true_eq] at h
  have hlength := h.2.length_le
  rw [List.length_drop] at hlength
  by_contra hne
  have hnil : text.length = 0 := by omega
  omega

theorem head?_eq_getLast?_occurrences_self (text : Bytes) :
    (occurrences text text).head? = (occurrences text text).getLast? := by
  cases hfirst : (occurrences text text).head? with
  | none => rw [List.head?_eq_none_iff.1 hfirst, List.getLast?_nil]
  | some first =>
      cases hlast : (occurrences text text).getLast? with
      | none =>
          rw [List.getLast?_eq_none_iff.1 hlast] at hfirst
          cases hfirst
      | some last =>
          rw [mem_occurrences_self (List.mem_of_head? hfirst),
            mem_occurrences_self (List.mem_of_getLast? hlast)]

/-- The pattern stops growing when it is the whole text. -/
theorem growPattern_spec (hstart : 0 ≤ patch.start2) (hlength : 0 ≤ patch.length1)
    (hinside : patch.start2 + patch.length1 ≤ text.length) (steps : Nat) (pattern : Bytes)
    (padding : Nat) (hsteps : text.length ≤ padding + steps)
    (hpattern : text.length ≤ padding → pattern = text) :
    ∃ last : Nat, growPattern text patch (steps + 1) pattern padding = .ok (last : Int) := by
  induction steps generalizing pattern padding with
  | zero =>
      rw [hpattern hsteps, growPattern, if_neg]
      · exact ⟨padding, rfl⟩
      · exact fun hagain => hagain.1 (head?_eq_getLast?_occurrences_self text)
  | succ steps ih =>
      rw [growPattern]
      split
      · have hmargin : (Patch.margin : Int) = 4 := rfl
        have hcast : (padding : Int) + Patch.margin = (padding + Patch.margin : Nat) := rfl
        simp only [hcast]
        rw [safeMidLength_of_le (by omega) (by omega) (by omega)]
        refine ih _ _ (by omega) fun hwhole => ?_
        rw [show max 0 (patch.start2 - (padding + Patch.margin : Nat)) = 0 by omega, Int.toNat_zero,
          List.drop_zero, List.take_of_length_le (by omega)]
      · exact ⟨padding, rfl⟩

/-- The context that is added is next to the old text of the patch. It is long, unless the text
begins or ends there. -/
theorem addContext_run (hne : text ≠ []) (hstart : 0 ≤ patch.start2) (hlength : 0 ≤ patch.length1)
    (hinside : patch.start2 + patch.length1 ≤ text.length) : ∃ first size : Nat,
      addContext patch text = .ok (patch.surround ((text.take patch.start2.toNat).drop first)
        ((text.drop (patch.start2 + patch.length1).toNat).take size)) ∧
      first ≤ patch.start2 ∧ (first = 0 ∨ first + Patch.margin ≤ patch.start2) ∧
      patch.start2 + patch.length1 + size ≤ text.length ∧
      (patch.start2 + patch.length1 + size = text.length ∨ Patch.margin ≤ size) := by
  obtain ⟨last, hlast⟩ := growPattern_spec hstart hlength hinside text.length
    ((text.drop patch.start2.toNat).take patch.length1.toNat) 0 (by omega)
    fun hempty => absurd (List.eq_nil_of_length_eq_zero (by omega)) hne
  rw [Nat.cast_zero] at hlast
  have hpattern : safeMidLength text patch.start2 patch.length1 =
      .ok ((text.drop patch.start2.toNat).take patch.length1.toNat) :=
    safeMidLength_of_le hstart (by omega) hlength
  -- so many characters stay in front of the context, and so many are behind the old text in it
  obtain ⟨first, hfirst⟩ : ∃ first : Nat,
      max 0 (patch.start2 - ((last : Int) + Patch.margin)) = first :=
    ⟨_, (Int.toNat_of_nonneg (le_max_left _ _)).symm⟩
  obtain ⟨size, hmore⟩ : ∃ size : Nat, min (text.length : Int)
      (patch.start2 + patch.length1 + ((last : Int) + Patch.margin)) -
        (patch.start2 + patch.length1) = size :=
    ⟨_, (Int.toNat_of_nonneg (by omega)).symm⟩
  have hfront : safeMidLength text first (patch.start2 - first) =
      .ok ((text.take patch.start2.toNat).drop first) := by
    rw [safeMidLength_of_le (by omega) (by omega) (by omega), Int.toNat_natCast, List.drop_take,
      show (patch.start2 - first).toNat = patch.start2.toNat - first by omega]
  have hback : safeMidLength text (patch.start2 + patch.length1) size =
      .ok ((text.drop (patch.start2 + patch.length1).toNat).take size) := by
    rw [safeMidLength_of_le (by omega) (by omega) (by omega), Int.toNat_natCast]
  refine ⟨first, size, ?_, by omega, by omega, by omega, by omega⟩
  rw [addContext, if_neg hne]
  simp only [hpattern, hlast, hfirst, hmore, hfront, hback, bind, Except.bind]
  rfl

/-- **Context.** A patch that fits a text belongs to it with its context. -/
theorem addContext_spec (h : patch.Sits front) (back : Bytes) : ∃ after before behind,
    addContext patch (front ++ (oldText patch.diffs ++ back)) = .ok after ∧
      after.Belongs before behind ∧
      before ++ (oldText after.diffs ++ behind) = front ++ (oldText patch.diffs ++ back) ∧
      before ++ (newText after.diffs ++ behind) = front ++ (newText patch.diffs ++ back) := by
  obtain ⟨text, htext⟩ : ∃ text, front ++ (oldText patch.diffs ++ back) = text := ⟨_, rfl⟩
  have hsize := congrArg List.length htext
  rw [List.length_append, List.length_append] at hsize
  have hstart2 := h.start2
  have hlength1 := h.length1
  rw [htext]
  by_cases hempty : text = []
  · obtain ⟨hfront, hrest⟩ := List.append_eq_nil_iff.1 (htext.trans hempty)
    obtain ⟨-, hback⟩ := List.append_eq_nil_iff.1 hrest
    refine ⟨patch, front, back, ?_, ⟨h, Or.inl hfront, Or.inl hback⟩, htext, rfl⟩
    rw [addContext, if_pos hempty]
    rfl
  · obtain ⟨first, size, hrun, hfirst, hmargin, hlast, hmore⟩ :=
      @addContext_run patch text hempty (by omega) (by omega) (by omega)
    have hfront : text.take patch.start2.toNat = front := by
      rw [← htext, hstart2, Int.toNat_natCast, List.take_left]
    have hback : text.drop (patch.start2 + patch.length1).toNat = back := by
      rw [← htext, hstart2, hlength1, ← Nat.cast_add, Int.toNat_natCast, ← List.drop_drop,
        List.drop_left, List.drop_left]
    rw [hfront, hback] at hrun
    have hsits : (patch.surround (front.drop first) (back.take size)).Sits (front.take first) := by
      refine Patch.Sits.surround ?_ _
      rw [List.take_append_drop]
      exact h
    obtain ⟨hold, hnew⟩ := patch.texts_surround (front.drop first) (back.take size)
    have haround : ∀ middle : Bytes, front.take first ++ ((front.drop first ++
        (middle ++ back.take size)) ++ back.drop size) = front ++ (middle ++ back) := by
      intro middle
      rw [List.append_assoc, List.append_assoc, List.take_append_drop, ← List.append_assoc,
        List.take_append_drop]
    refine ⟨_, front.take first, back.drop size, hrun, ⟨hsits, ?_, ?_⟩, ?_, ?_⟩
    · by_cases hzero : first = 0
      · exact Or.inl (by rw [hzero, List.take_zero])
      · have hlong : Patch.margin ≤ (front.drop first).length := by
          rw [List.length_drop]
          omega
        obtain ⟨rest, hrest⟩ := patch.first_surround (back.take size)
          (List.ne_nil_of_length_pos (lt_of_lt_of_le (by decide) hlong))
        exact Or.inr ⟨_, rest, hrest, hlong⟩
    · by_cases hall : back.length ≤ size
      · exact Or.inl (List.drop_eq_nil_of_le hall)
      · have hlong : Patch.margin ≤ (back.take size).length := by
          rw [List.length_take]
          omega
        obtain ⟨rest, hrest⟩ := patch.last_surround (front.drop first)
          (List.ne_nil_of_length_pos (lt_of_lt_of_le (by decide) hlong))
        exact Or.inr ⟨rest, _, hrest, hlong⟩
    · rw [hold, haround, htext]
    · rw [hnew, haround]

end Context

/-! ## The turns of the loop -/

section Turns

variable {diffs : Diffs} {state : Making} {text : Bytes}

/-- An insertion is added to the patch and to the next text. -/
theorem Making.step_insert (hcount : 0 ≤ state.char_count2)
    (hpost : state.char_count2 ≤ state.postpatch_text.length) :
    state.step diffs ⟨.insert, text⟩ = .ok { state with
      patch := { state.opened ⟨.insert, text⟩ with
        diffs := (state.opened ⟨.insert, text⟩).diffs ++ [⟨.insert, text⟩]
        length2 := (state.opened ⟨.insert, text⟩).length2 + text.length }
      postpatch_text := state.postpatch_text.take state.char_count2.toNat ++ text ++
        state.postpatch_text.drop state.char_count2.toNat
      char_count2 := state.char_count2 + text.length } := by
  have hsub : substr state.postpatch_text state.char_count2 =
      state.postpatch_text.take state.char_count2.toNat := if_neg (Int.not_lt.2 hcount)
  simp only [Making.step, Making.edit, safeMid_of_le hcount hpost, hsub, bind, Except.bind]
  rfl

/-- A deletion is added to the patch and taken out of the next text. -/
theorem Making.step_delete (hcount : 0 ≤ state.char_count2)
    (hpost : state.char_count2 + text.length ≤ state.postpatch_text.length) :
    state.step diffs ⟨.delete, text⟩ = .ok { state with
      patch := { state.opened ⟨.delete, text⟩ with
        diffs := (state.opened ⟨.delete, text⟩).diffs ++ [⟨.delete, text⟩]
        length1 := (state.opened ⟨.delete, text⟩).length1 + text.length }
      postpatch_text := state.postpatch_text.take state.char_count2.toNat ++
        state.postpatch_text.drop (state.char_count2 + text.length).toNat
      char_count1 := state.char_count1 + text.length } := by
  have hsub : substr state.postpatch_text state.char_count2 =
      state.postpatch_text.take state.char_count2.toNat := if_neg (Int.not_lt.2 hcount)
  have hmid : safeMid state.postpatch_text (state.char_count2 + text.length) = .ok _ :=
    safeMid_of_le (by omega) hpost
  simp only [Making.step, Making.edit, hmid, hsub, bind, Except.bind]
  rfl

/-- The counts can be updated before the patch is closed. -/
theorem Making.close_counted (state : Making) (length : Int) :
    (do
      let after ← state.close
      return { after with
        char_count1 := after.char_count1 + length
        char_count2 := after.char_count2 + length } : Except Stop Making) =
      Making.close { state with
        char_count1 := state.char_count1 + length
        char_count2 := state.char_count2 + length } := by
  unfold Making.close
  by_cases hempty : state.patch.diffs = []
  · rw [if_pos hempty, if_pos hempty]
    rfl
  · rw [if_neg hempty, if_neg hempty]
    cases addContext state.patch state.prepatch_text with
    | error stop => rfl
    | ok patch => rfl

/-- A long equality closes the patch. -/
theorem Making.step_equal (diffs : Diffs) (state : Making) (text : Bytes) :
    state.step diffs ⟨.equal, text⟩ =
      let after := { state with
        patch := state.grown diffs ⟨.equal, text⟩
        char_count1 := state.char_count1 + text.length
        char_count2 := state.char_count2 + text.length }
      if 2 * Patch.margin ≤ (text.length : Int) then after.close else .ok after := by
  rw [Making.step, Making.edit]
  simp only
  split
  · exact Making.close_counted { state with patch := state.grown diffs ⟨.equal, text⟩ } text.length
  · rfl

end Turns

/-! ## The loop -/

/-- No short equality before the last diff is the same as the last one. The loop takes such a one
for the last. -/
def NoEcho (diffs : Diffs) : Prop :=
  ∀ cur ∈ diffs.dropLast, cur.operation = .equal → cur.text.length < 2 * Patch.margin →
    diffs.getLast? ≠ some cur

/-- The variables of the loop when some diffs are done and the others are to come: what the open
patch is for has a text in front of it, and one behind it that both texts have. -/
structure Making.Follows (text1 : Bytes) (done rest : Diffs) (state : Making) (front tail : Bytes) :
    Prop where
  new : newText done = front ++ (newText state.patch.diffs ++ tail)
  prepatch : state.prepatch_text = front ++ (oldText state.patch.diffs ++ (tail ++ oldText rest))
  postpatch : state.postpatch_text = newText done ++ oldText rest
  count : state.char_count2 = (newText done).length
  made : Leads state.patches text1 state.prepatch_text
  sits : if state.patch.diffs = [] then
      state.char_count1 = state.char_count2 ∧ state.patch = Patch.new ∧ tail = []
    else state.patch.Sits front

section Loop

variable {text1 front tail : Bytes} {done rest diffs : Diffs} {state : Making} {cur : Diff}

/-- Closing the patch at a place where the texts agree again. -/
theorem Making.Follows.close (h : state.Follows text1 done rest front tail) :
    ∃ after, state.close = .ok after ∧ after.Follows text1 done rest (newText done) [] ∧
      after.prepatch_text = newText done ++ oldText rest := by
  have hpost : state.postpatch_text =
      front ++ (newText state.patch.diffs ++ (tail ++ oldText rest)) := by
    rw [h.postpatch, h.new, List.append_assoc, List.append_assoc]
  have hsits := h.sits
  have hcount := h.count
  unfold Making.close
  by_cases hempty : state.patch.diffs = []
  · rw [if_pos hempty] at hsits ⊢
    obtain ⟨hcounts, hpatch, rfl⟩ := hsits
    have hfront : newText done = front := by
      rw [h.new, hempty, newText_nil, List.append_nil, List.append_nil]
    have hpre := h.prepatch
    rw [hempty, oldText_nil, List.nil_append, List.nil_append, ← hfront] at hpre
    rw [← hfront] at h
    exact ⟨state, rfl, h, hpre⟩
  · rw [if_neg hempty] at hsits ⊢
    obtain ⟨patch, before, behind, hpatch, hbelongs, hold, hnew⟩ :=
      addContext_spec hsits (tail ++ oldText rest)
    rw [← h.prepatch] at hpatch hold
    rw [← hpost] at hnew
    have hmade := h.made
    rw [← hold] at hmade
    rw [hpatch]
    refine ⟨_, rfl, ⟨(List.append_nil _).symm, h.postpatch, h.postpatch, hcount, ?_, ?_⟩,
      h.postpatch⟩
    · show Leads _ text1 state.postpatch_text
      rw [← hnew]
      exact hmade.concat hbelongs
    · exact ⟨rfl, rfl, rfl⟩

/-- At an edit, the patch that it is added to begins here or has begun before. -/
theorem Making.Follows.opened (h : state.Follows text1 done (cur :: rest) front [])
    (hcur : cur.operation ≠ .equal) :
    (state.opened cur).diffs = state.patch.diffs ∧ (state.opened cur).Sits front := by
  have hsits := h.sits
  unfold Making.opened
  by_cases hempty : state.patch.diffs = []
  · rw [if_pos hempty] at hsits
    rw [if_pos ⟨hempty, hcur⟩]
    obtain ⟨hcounts, hnew, -⟩ := hsits
    have hfront : newText done = front := by
      rw [h.new, hempty, newText_nil, List.append_nil, List.append_nil]
    have hcount := h.count
    rw [hfront] at hcount
    refine ⟨rfl, hcounts.trans hcount, hcount, ?_, ?_⟩
    · rw [hnew]
      rfl
    · rw [hnew]
      rfl
  · rw [if_neg hempty] at hsits
    rw [if_neg fun hboth => hempty hboth.1]
    exact ⟨rfl, hsits⟩

/-- A diff is added to the patch. -/
theorem Making.Follows.add (h : state.Follows text1 done (cur :: rest) front []) {patch : Patch}
    (hpatch : patch.diffs = state.patch.diffs ++ [cur]) (hsits : patch.Sits front)
    {postpatch_text : Bytes} (hpost : postpatch_text = newText (done ++ [cur]) ++ oldText rest)
    (char_count1 : Int) {char_count2 : Int}
    (hcount : char_count2 = (newText (done ++ [cur])).length) :
    Making.Follows text1 (done ++ [cur]) rest
      { state with
        patch := patch
        postpatch_text := postpatch_text
        char_count1 := char_count1
        char_count2 := char_count2 } front [] where
  new := by
    have hnew := h.new
    rw [List.append_nil] at hnew
    rw [hpatch, newText_append, newText_append, hnew, List.append_nil, List.append_assoc]
  prepatch := by
    have hpre := h.prepatch
    rw [List.nil_append, oldText_cons] at hpre
    show state.prepatch_text = _
    rw [hpatch, oldText_append, oldText_cons, oldText_nil, List.append_nil, List.nil_append, hpre,
      List.append_assoc]
  postpatch := hpost
  count := hcount
  made := h.made
  sits := by
    rw [if_neg]
    · exact hsits
    · rw [hpatch]
      exact List.append_ne_nil_of_right_ne_nil _ (List.cons_ne_nil _ _)

/-- **An edit** is added to the patch. -/
theorem Making.Follows.step_edit (h : state.Follows text1 done (cur :: rest) front [])
    (hcur : cur.operation ≠ .equal) : ∃ after, state.step diffs cur = .ok after ∧
      after.Follows text1 (done ++ [cur]) rest front [] := by
  obtain ⟨hdiffs, hsits⟩ := h.opened hcur
  have hcount := h.count
  have hpost := h.postpatch
  have hlength1 := hsits.length1
  have hlength2 := hsits.length2
  have htake : state.postpatch_text.take state.char_count2.toNat = newText done := by
    rw [hcount, hpost, Int.toNat_natCast, List.take_left]
  have hroom := congrArg List.length hpost
  rw [List.length_append] at hroom
  cases cur with
  | mk operation text =>
    rw [oldText_cons] at hpost hroom
    cases operation with
    | insert =>
        rw [old_insert, List.nil_append] at hpost hroom
        have hdrop : state.postpatch_text.drop state.char_count2.toNat = oldText rest := by
          rw [hcount, hpost, Int.toNat_natCast, List.drop_left]
        refine ⟨_, Making.step_insert (by omega) (by omega), ?_⟩
        refine h.add ?_ ?_ ?_ _ ?_
        · show (state.opened ⟨.insert, text⟩).diffs ++ _ = _
          rw [hdiffs]
        · refine ⟨hsits.start1, hsits.start2, ?_, ?_⟩
          · simpa using hlength1
          · simpa using hlength2
        · rw [htake, hdrop]
          simp
        · simp [hcount]
    | delete =>
        rw [old_delete, List.length_append] at hroom
        rw [old_delete] at hpost
        have hdrop : state.postpatch_text.drop (state.char_count2 + text.length).toNat =
            oldText rest := by
          rw [hcount, hpost, ← Nat.cast_add, Int.toNat_natCast, ← List.drop_drop, List.drop_left,
            List.drop_left]
        refine ⟨_, Making.step_delete (by omega) (by omega), ?_⟩
        refine h.add ?_ ?_ ?_ _ ?_
        · show (state.opened ⟨.delete, text⟩).diffs ++ _ = _
          rw [hdiffs]
        · refine ⟨hsits.start1, hsits.start2, ?_, ?_⟩
          · simpa using hlength1
          · simpa using hlength2
        · rw [htake, hdrop]
          simp
        · simp [hcount]
    | equal => exact absurd rfl hcur

/-- An equality that is not added to the patch. -/
theorem Making.Follows.pass (h : state.Follows text1 done (cur :: rest) front [])
    (hcur : cur.operation = .equal) : ∃ front tail,
      Making.Follows text1 (done ++ [cur]) rest
        { state with
          char_count1 := state.char_count1 + cur.text.length
          char_count2 := state.char_count2 + cur.text.length } front tail ∧
      (state.patch.diffs = [] → tail = []) := by
  rw [eq_of_equal hcur] at h ⊢
  have hnew := h.new
  have hpre := h.prepatch
  have hpost := h.postpatch
  have hcount := h.count
  have hsits := h.sits
  rw [oldText_cons, old_equal] at hpre hpost
  rw [List.append_nil] at hnew
  rw [List.nil_append] at hpre
  by_cases hempty : state.patch.diffs = []
  · rw [if_pos hempty] at hsits
    refine ⟨front ++ cur.text, [], ⟨?_, ?_, ?_, ?_, h.made, ?_⟩, fun _ => rfl⟩
    · simp [hnew, hempty]
    · simp [hpre, hempty]
    · simp [hpost]
    · simp [hcount]
    · rw [if_pos hempty]
      exact ⟨by rw [hsits.1], hsits.2.1, rfl⟩
  · rw [if_neg hempty] at hsits
    refine ⟨front, cur.text, ⟨?_, ?_, ?_, ?_, h.made, ?_⟩, fun h => absurd h hempty⟩
    · simp [hnew]
    · simp [hpre]
    · simp [hpost]
    · simp [hcount]
    · rw [if_neg hempty]
      exact hsits

/-- **An equality** is inside of the patch, or behind it. -/
theorem Making.Follows.step_equal (h : state.Follows text1 done (cur :: rest) front [])
    (hcur : cur.operation = .equal) (hlast : cur.text.length < 2 * Patch.margin → rest ≠ [] →
      diffs.getLast? ≠ some cur) :
    ∃ after front tail, state.step diffs cur = .ok after ∧
      after.Follows text1 (done ++ [cur]) rest front tail ∧ (tail ≠ [] → rest = []) := by
  -- the patch with the equality, if it is added, and the counts behind it
  have hgrown : ∃ front tail, Making.Follows text1 (done ++ [cur]) rest
        { state with
          patch := state.grown diffs cur
          char_count1 := state.char_count1 + cur.text.length
          char_count2 := state.char_count2 + cur.text.length } front tail ∧
      (cur.text.length < 2 * Patch.margin → tail ≠ [] → rest = []) := by
    unfold Making.grown
    dsimp only
    split
    · rename_i hadded
      have hsits := h.sits
      rw [if_neg hadded.2.1] at hsits
      have hcount := h.count
      have hpost := h.postpatch
      rw [eq_of_equal hcur] at h hpost ⊢
      refine ⟨front, [], h.add ?_ ?_ ?_ _ ?_, fun _ hne => absurd rfl hne⟩
      · rfl
      · refine ⟨hsits.start1, hsits.start2, ?_, ?_⟩
        · simp [hsits.length1]
        · simp [hsits.length2]
      · simp [hpost]
      · simp [hcount]
    · rename_i hpassed
      obtain ⟨front, tail, hfollows, hempty⟩ := h.pass hcur
      refine ⟨front, tail, hfollows, fun hshort hne => ?_⟩
      -- a short equality in an open patch is only passed if it is taken for the last diff
      by_contra hrest
      refine hpassed ⟨by omega, fun hnil => hne (hempty hnil), hlast hshort hrest⟩
  obtain ⟨front, tail, hfollows, htail⟩ := hgrown
  have hstep := Making.step_equal diffs state cur.text
  rw [← eq_of_equal hcur] at hstep
  dsimp only at hstep
  rw [hstep]
  split
  · obtain ⟨after, hafter, hclosed, -⟩ := hfollows.close
    exact ⟨after, _, [], hafter, hclosed, fun hne => absurd rfl hne⟩
  · exact ⟨_, front, tail, rfl, hfollows, htail (by omega)⟩

/-- **The loop** of `patch_make`, by induction on the diffs that are to come. -/
theorem Making.Follows.foldlM (hecho : NoEcho diffs) (hdiffs : done ++ rest = diffs)
    (h : state.Follows text1 done rest front tail) (htail : tail ≠ [] → rest = []) :
    ∃ after front tail, rest.foldlM (Making.step diffs) state = .ok after ∧
      after.Follows text1 diffs [] front tail := by
  induction rest generalizing done state front tail with
  | nil =>
      rw [List.append_nil] at hdiffs
      rw [hdiffs] at h
      exact ⟨state, front, tail, rfl, h⟩
  | cons cur rest ih =>
      obtain rfl : tail = [] := by
        by_contra hne
        cases htail hne
      have hdiffs' : (done ++ [cur]) ++ rest = diffs := by rw [List.append_assoc]; exact hdiffs
      by_cases hcur : cur.operation = .equal
      · obtain ⟨after, front, tail, hstep, hafter, htail⟩ := h.step_equal hcur fun hshort hrest =>
          hecho cur (by rw [← hdiffs, List.dropLast_append_of_ne_nil (List.cons_ne_nil _ _),
            List.dropLast_cons_of_ne_nil hrest]; simp) hcur hshort
        rw [List.foldlM_cons, hstep]
        exact ih hdiffs' hafter htail
      · obtain ⟨after, hstep, hafter⟩ := h.step_edit hcur
        rw [List.foldlM_cons, hstep]
        exact ih hdiffs' hafter fun hne => absurd rfl hne

end Loop

/-! ## Every patch -/

/-- The numbers and the texts of a patch for texts of this size. -/
structure Patch.Bounded (patch : Patch) (size : Int) : Prop where
  start1 : patch.start1 = patch.start2
  start2 : 0 ≤ patch.start2
  length1 : 0 ≤ patch.length1 ∧ patch.start2 + patch.length1 ≤ size
  length2 : 0 ≤ patch.length2 ∧ patch.start2 + patch.length2 ≤ size
  texts : ∀ diff ∈ patch.diffs, (diff.text.length : Int) ≤ size

/-- The variables of the loop, of which only the numbers matter: the open patch lies in the text
that it is for, and changes its length as the next text says. -/
structure Making.Counts (size : Int) (rest : Diffs) (state : Making) : Prop where
  post : (state.postpatch_text.length : Int) = state.char_count2 + (oldText rest).length
  count : 0 ≤ state.char_count2
  change : state.patch.length2 - state.patch.length1 =
    state.postpatch_text.length - state.prepatch_text.length
  inside : state.patch.start2 + state.patch.length1 + (oldText rest).length ≤
    state.prepatch_text.length
  bounded : state.patch.Bounded size
  room : state.prepatch_text.length ≤ size ∧
    state.char_count2 + (oldText rest).length + (newText rest).length ≤ size
  made : ∀ patch ∈ state.patches, patch.Bounded size
  closed : state.patch.diffs = [] → state.char_count1 = state.char_count2 ∧ state.patch = Patch.new

section Counts

variable {size : Int} {rest diffs : Diffs} {state : Making} {cur : Diff}

theorem Patch.bounded_new (h : 0 ≤ size) : Patch.new.Bounded size :=
  ⟨rfl, le_refl _, ⟨le_refl _, h⟩, ⟨le_refl _, h⟩, fun _ hdiff => absurd hdiff List.not_mem_nil⟩

/-- The context is part of a text. -/
theorem Patch.length_surround_le {patch : Patch} {front back : Bytes}
    (h : ∀ diff ∈ patch.diffs, (diff.text.length : Int) ≤ size) (hfront : (front.length : Int) ≤ size)
    (hback : (back.length : Int) ≤ size) :
    ∀ diff ∈ (patch.surround front back).diffs, (diff.text.length : Int) ≤ size := by
  have hbegun : ∀ diff ∈ (if front = [] then patch.diffs else ⟨.equal, front⟩ :: patch.diffs),
      (diff.text.length : Int) ≤ size := by
    split
    · exact h
    · exact List.forall_mem_cons.2 ⟨hfront, h⟩
  intro diff hdiff
  unfold Patch.surround at hdiff
  dsimp only at hdiff
  split at hdiff
  · exact hbegun diff hdiff
  · rcases List.mem_append.1 hdiff with hold | hnew
    · exact hbegun diff hold
    · rw [List.mem_singleton.1 hnew]
      exact hback

/-- Closing a patch adds one that is bounded. -/
theorem Making.Counts.close (h : state.Counts size rest) :
    ∃ after, state.close = .ok after ∧ after.Counts size rest := by
  have hpost := h.post
  have hcount := h.count
  have hchange := h.change
  have hinside := h.inside
  obtain ⟨hstart1, hstart2, hlength1, hlength2, htexts⟩ := h.bounded
  obtain ⟨hpre, hroom⟩ := h.room
  unfold Making.close
  split
  · exact ⟨state, rfl, h⟩
  · have hadded : ∃ patch, addContext state.patch state.prepatch_text = .ok patch ∧
        patch.Bounded size := by
      by_cases hempty : state.prepatch_text = []
      · rw [addContext, if_pos hempty]
        exact ⟨state.patch, rfl, h.bounded⟩
      · obtain ⟨first, more, hrun, hfirst, -, hlast, -⟩ :=
          @addContext_run state.patch state.prepatch_text hempty hstart2 hlength1.1 (by omega)
        refine ⟨_, hrun, ?_⟩
        have hfront : ((state.prepatch_text.take state.patch.start2.toNat).drop first).length =
            state.patch.start2.toNat - first := by
          rw [List.length_drop, List.length_take]
          omega
        have hback : ((state.prepatch_text.drop
            (state.patch.start2 + state.patch.length1).toNat).take more).length = more := by
          rw [List.length_take, List.length_drop]
          omega
        refine ⟨?_, ?_, ⟨?_, ?_⟩, ⟨?_, ?_⟩, Patch.length_surround_le htexts ?_ ?_⟩
        any_goals simp only [Patch.surround, hfront, hback]
        all_goals omega
    obtain ⟨patch, hpatch, hbounded⟩ := hadded
    rw [hpatch]
    refine ⟨_, rfl, hpost, hcount, ?_, ?_, Patch.bounded_new (by omega), ?_, ?_,
      fun _ => ⟨rfl, rfl⟩⟩
    · show (0 : Int) - 0 = state.postpatch_text.length - state.postpatch_text.length
      omega
    · show (0 : Int) + 0 + (oldText rest).length ≤ state.postpatch_text.length
      omega
    · show (state.postpatch_text.length : Int) ≤ size ∧ _
      exact ⟨by omega, hroom⟩
    · intro other hother
      rcases List.mem_append.1 hother with hold | hnew
      · exact h.made other hold
      · rw [List.mem_singleton.1 hnew]
        exact hbounded

/-- The patch that an edit is added to lies in the text that it is for. -/
theorem Making.Counts.opened (h : state.Counts size (cur :: rest)) :
    (state.opened cur).Bounded size ∧
      (state.opened cur).length2 - (state.opened cur).length1 =
        state.postpatch_text.length - state.prepatch_text.length ∧
      (state.opened cur).start2 + (state.opened cur).length1 + (oldText (cur :: rest)).length ≤
        state.prepatch_text.length := by
  have hpost := h.post
  have hcount := h.count
  have hchange := h.change
  obtain ⟨hpre, hroom⟩ := h.room
  unfold Making.opened
  split
  · rename_i hopen
    obtain ⟨hcounts, hnew⟩ := h.closed hopen.1
    rw [hnew] at hchange ⊢
    have hzero : Patch.new.length1 = 0 ∧ Patch.new.length2 = 0 := ⟨rfl, rfl⟩
    refine ⟨⟨hcounts, hcount, ?_, ?_, fun _ hdiff => absurd hdiff List.not_mem_nil⟩, hchange, ?_⟩
    all_goals
      simp only [hzero] at hchange ⊢
      omega
  · exact ⟨h.bounded, hchange, h.inside⟩

/-- **An edit** keeps the numbers right. -/
theorem Making.Counts.step_edit (h : state.Counts size (cur :: rest))
    (hcur : cur.operation ≠ .equal) :
    ∃ after, state.step diffs cur = .ok after ∧ after.Counts size rest := by
  have hopen : ∀ {front : Diffs} {diff : Diff} {closed : Prop}, front ++ [diff] = [] → closed :=
    fun hnil => absurd hnil (List.append_ne_nil_of_right_ne_nil _ (List.cons_ne_nil _ _))
  obtain ⟨hbounded, hchange, hinside⟩ := h.opened
  obtain ⟨hstart1, hstart2, hlength1, hlength2, htexts⟩ := hbounded
  obtain ⟨hpre, hroom⟩ := h.room
  have hpost := h.post
  have hcount := h.count
  have hadded : (cur.text.length : Int) ≤ size →
      ∀ diff ∈ (state.opened cur).diffs ++ [cur], (diff.text.length : Int) ≤ size := by
    intro hcur diff hdiff
    rcases List.mem_append.1 hdiff with hold | hnew
    · exact htexts diff hold
    · rwa [List.mem_singleton.1 hnew]
  cases cur with
  | mk operation text =>
    rw [oldText_cons, List.length_append] at hpost hroom hinside
    rw [newText_cons, List.length_append] at hroom
    cases operation with
    | insert =>
        rw [old_insert, List.length_nil] at hpost hroom hinside
        rw [new_insert] at hroom
        refine ⟨_, Making.step_insert hcount (by omega), ?_, ?_, ?_, ?_,
          ⟨hstart1, hstart2, ?_, ?_, hadded (by dsimp only; omega)⟩, ⟨hpre, ?_⟩, h.made, ?_⟩
        · simp only [List.length_append, List.length_take, List.length_drop]
          omega
        · show 0 ≤ state.char_count2 + text.length
          omega
        · simp only [List.length_append, List.length_take, List.length_drop]
          omega
        · show (state.opened ⟨.insert, text⟩).start2 + (state.opened ⟨.insert, text⟩).length1 +
            (oldText rest).length ≤ state.prepatch_text.length
          omega
        · exact hlength1
        · show 0 ≤ (state.opened ⟨.insert, text⟩).length2 + text.length ∧
            (state.opened ⟨.insert, text⟩).start2 +
              ((state.opened ⟨.insert, text⟩).length2 + text.length) ≤ size
          omega
        · show state.char_count2 + text.length + _ + _ ≤ size
          omega
        · exact hopen
    | delete =>
        rw [old_delete] at hpost hroom hinside
        rw [new_delete, List.length_nil] at hroom
        refine ⟨_, Making.step_delete hcount (by omega), ?_, hcount, ?_, ?_,
          ⟨hstart1, hstart2, ?_, ?_, hadded (by dsimp only; omega)⟩, ⟨hpre, ?_⟩, h.made, ?_⟩
        · simp only [List.length_append, List.length_take, List.length_drop]
          omega
        · simp only [List.length_append, List.length_take, List.length_drop]
          omega
        · show (state.opened ⟨.delete, text⟩).start2 +
            ((state.opened ⟨.delete, text⟩).length1 + text.length) + (oldText rest).length ≤
              state.prepatch_text.length
          omega
        · show 0 ≤ (state.opened ⟨.delete, text⟩).length1 + text.length ∧
            (state.opened ⟨.delete, text⟩).start2 +
              ((state.opened ⟨.delete, text⟩).length1 + text.length) ≤ size
          omega
        · exact hlength2
        · show state.char_count2 + _ + _ ≤ size
          omega
        · exact hopen
    | equal => exact absurd rfl hcur

/-- **An equality** keeps the numbers right, also where it is taken for the last one. -/
theorem Making.Counts.step_equal {text : Bytes} (h : state.Counts size (⟨.equal, text⟩ :: rest)) :
    ∃ after, state.step diffs ⟨.equal, text⟩ = .ok after ∧ after.Counts size rest := by
  obtain ⟨hstart1, hstart2, hlength1, hlength2, htexts⟩ := h.bounded
  obtain ⟨hpre, hroom⟩ := h.room
  have hpost := h.post
  have hcount := h.count
  have hchange := h.change
  have hinside := h.inside
  rw [oldText_cons, List.length_append, old_equal] at hpost hroom hinside
  rw [newText_cons, List.length_append, new_equal] at hroom
  have hcounted : Making.Counts size rest { state with
      patch := state.grown diffs ⟨.equal, text⟩
      char_count1 := state.char_count1 + text.length
      char_count2 := state.char_count2 + text.length } := by
    unfold Making.grown
    dsimp only
    split
    · rename_i hadded
      refine ⟨?_, ?_, ?_, ?_, ⟨hstart1, hstart2, ?_, ?_, fun diff hdiff => ?_⟩, ⟨hpre, ?_⟩, h.made,
        fun hnil => absurd hnil (List.append_ne_nil_of_right_ne_nil _ (List.cons_ne_nil _ _))⟩
      any_goals
        dsimp only
        omega
      rcases List.mem_append.1 hdiff with hold | hnew
      · exact htexts diff hold
      · rw [List.mem_singleton.1 hnew]
        dsimp only
        omega
    · refine ⟨?_, ?_, hchange, ?_, h.bounded, ⟨hpre, ?_⟩, h.made, fun hnil => ?_⟩ <;> dsimp only
      any_goals omega
      obtain ⟨hcounts, hnew⟩ := h.closed hnil
      exact ⟨by rw [hcounts], hnew⟩
  rw [Making.step_equal]
  dsimp only
  split
  · exact hcounted.close
  · exact ⟨_, rfl, hcounted⟩

/-- **The loop** of `patch_make` runs through all diffs. -/
theorem Making.Counts.foldlM (h : state.Counts size rest) :
    ∃ after, rest.foldlM (Making.step diffs) state = .ok after ∧ after.Counts size [] := by
  induction rest generalizing state with
  | nil => exact ⟨state, rfl, h⟩
  | cons cur rest ih =>
      have hstep : ∃ after, state.step diffs cur = .ok after ∧ after.Counts size rest := by
        by_cases hcur : cur.operation = .equal
        · rw [eq_of_equal hcur] at h ⊢
          exact h.step_equal
        · exact h.step_edit hcur
      obtain ⟨after, hafter, hcounts⟩ := hstep
      rw [List.foldlM_cons, hafter]
      exact ih hcounts

/-- `patch_make` needs no more of a text than its length. -/
theorem makePatches_bounded {text1 : Bytes} (h : text1.length = (oldText diffs).length) :
    ∃ patches, makePatches text1 diffs = .ok patches ∧
      ∀ patch ∈ patches, patch.Bounded (text1.length + (newText diffs).length) := by
  unfold makePatches
  split
  · exact ⟨[], rfl, fun patch hpatch => absurd hpatch List.not_mem_nil⟩
  · have hstart : (Making.start text1).Counts (text1.length + (newText diffs).length) diffs := by
      refine ⟨?_, le_refl _, ?_, ?_, Patch.bounded_new (by omega), ⟨?_, ?_⟩, ?_,
        fun _ => ⟨rfl, rfl⟩⟩
      · show (text1.length : Int) = 0 + (oldText diffs).length
        omega
      · show (0 : Int) - 0 = text1.length - text1.length
        omega
      · show (0 : Int) + 0 + (oldText diffs).length ≤ text1.length
        omega
      · show (text1.length : Int) ≤ text1.length + (newText diffs).length
        omega
      · show (0 : Int) + (oldText diffs).length + (newText diffs).length ≤ _
        omega
      · exact fun patch hpatch => absurd hpatch List.not_mem_nil
    obtain ⟨state, hloop, hstate⟩ := @Making.Counts.foldlM _ _ diffs _ hstart
    obtain ⟨after, hclose, hafter⟩ := hstate.close
    simp only [hloop, hclose, bind, Except.bind]
    exact ⟨after.patches, rfl, hafter.made⟩

end Counts

/-- **`patch_make`** makes patches that lead from the old text of the diffs to their new text, one
after the other: each finds its old text exactly where it starts, with its context. -/
theorem makePatches_spec (diffs : Diffs) (hecho : NoEcho diffs) : ∃ patches,
    makePatches (oldText diffs) diffs = .ok patches ∧
      Leads patches (oldText diffs) (newText diffs) := by
  unfold makePatches
  split
  · rename_i hempty
    rw [hempty]
    exact ⟨[], rfl, .nil _⟩
  · have hstart : (Making.start (oldText diffs)).Follows (oldText diffs) [] diffs [] [] :=
      ⟨rfl, rfl, rfl, rfl, .nil _, ⟨rfl, rfl, rfl⟩⟩
    obtain ⟨state, front, tail, hloop, hstate⟩ :=
      hstart.foldlM hecho (List.nil_append diffs) fun hne => absurd rfl hne
    obtain ⟨after, hclose, hafter, hpre⟩ := hstate.close
    have hmade := hafter.made
    rw [hpre, oldText_nil, List.append_nil] at hmade
    simp only [hloop, hclose, bind, Except.bind]
    exact ⟨after.patches, rfl, hmade⟩

/-- For two texts, `patch_make` makes its patches from diffs that spell the new text and an old one
of the same length. -/
theorem patchMake_settles (steps : Nat) (text1 text2 : Bytes)
    (hsteps : text1.length + text2.length + 1 < steps)
    (hlength : text1.length + text2.length + 1 < 2 ^ 31) :
    Settles (Excuse true text1 text2)
      (fun patches => ∃ diffs, newText diffs = text2 ∧ (oldText diffs).length = text1.length ∧
        makePatches text1 diffs = .ok patches)
      (patchMake steps text1 text2) := by
  unfold patchMake
  refine (diffMain_sound steps text1 text2 true hsteps hlength).bind fun diffs hspells => ?_
  have hmake : ∀ after, newText after = text2 → (oldText after).length = text1.length →
      Settles (Excuse true text1 text2)
        (fun patches => ∃ diffs, newText diffs = text2 ∧ (oldText diffs).length = text1.length ∧
          makePatches text1 diffs = .ok patches) (untimed (makePatches text1 after)) := by
    intro after hnew hold
    obtain ⟨patches, hpatches, -⟩ := makePatches_bounded hold.symm
    rw [hpatches]
    exact Settles.pure ⟨after, hnew, hold, hpatches⟩
  dsimp only
  split
  · obtain ⟨cleaned, hcleaned, hnew, hold⟩ := cleanupSemantic_new diffs
    obtain ⟨after, hafter, hsame⟩ := cleanupEfficiency_same cleaned
    rw [hcleaned, Option.bind_some, hafter]
    refine hmake after (hsame.new.trans (hnew.trans hspells.new)) ?_
    rw [hsame.old, hold, hspells.length]
  · exact hmake diffs hspells.new hspells.length

/-- **`patch_make`** comes to its end for every two texts, unless it accesses what is outside of the
array of their many lines. Its patches lie inside of the texts. If they are made of diffs that spell
both texts, with no equality that is taken for the last one, they lead from the old text to the new
one: each finds its old text exactly where it starts, with its context. -/
theorem patchMake_leads (steps : Nat) (text1 text2 : Bytes) (clock : Clock)
    (hsteps : text1.length + text2.length + 1 < steps)
    (hlength : text1.length + text2.length + 1 < 2 ^ 31) :
    (∃ patches last, (patchMake steps text1 text2).run clock = .ok patches last ∧
      (∃ diffs, makePatches text1 diffs = .ok patches ∧
        newText diffs = text2 ∧ (oldText diffs).length = text1.length) ∧
      (∀ patch ∈ patches, patch.Bounded (text1.length + text2.length)) ∧
      ∀ diffs, makePatches text1 diffs = .ok patches → oldText diffs = text1 →
        newText diffs = text2 → NoEcho diffs → Leads patches text1 text2) ∨
    ∃ last, (patchMake steps text1 text2).run clock = .error .outside last ∧
      125 < text1.count 10 + text2.count 10 := by
  rcases patchMake_settles steps text1 text2 hsteps hlength clock with
    ⟨patches, last, hrun, diffs, rfl, hold, hpatches⟩ | ⟨stop, last, hrun, hlined, rfl, hmany⟩
  · obtain ⟨made, hmade, hbounded⟩ := makePatches_bounded hold.symm
    obtain rfl : made = patches := Except.ok.inj (hmade.symm.trans hpatches)
    refine Or.inl ⟨made, last, hrun, ⟨diffs, hmade, rfl, hold⟩, hbounded, ?_⟩
    intro others hothers htext1 htext2 hecho
    obtain ⟨found, hfound, hleads⟩ := makePatches_spec others hecho
    rw [htext1] at hfound
    rwa [Except.ok.inj (hothers.symm.trans hfound), ← htext1, ← htext2]
  · exact Or.inr ⟨last, hrun, hmany⟩

/-- The text `a` gets a second character, and the patch leads there. -/
theorem patchMake_leads_small : ∃ patches last,
    (patchMake 8 [97] [97, 98]).run none = .ok patches last ∧ Leads patches [97] [97, 98] := by
  have hmerge : cleanupMerge [⟨.equal, [97]⟩, ⟨.insert, [98]⟩] =
      some [⟨.equal, [97]⟩, ⟨.insert, [98]⟩] :=
    @cleanupMerge_eq_some _ [⟨.equal, [97]⟩, ⟨.insert, [98]⟩] rfl rfl
  have hmain : diffMain 8 [97] [97, 98] true = pure [⟨.equal, [97]⟩, ⟨.insert, [98]⟩] := by
    rw [diffMain, if_neg (by decide)]
    simp [commonPrefix, commonSuffix, chop, right, compute, hmerge, orThrow]
  rcases patchMake_leads 8 [97] [97, 98] none (by decide) (by decide) with
    ⟨patches, last, hrun, -, -, hleads⟩ | ⟨last, -, hmany⟩
  · refine ⟨patches, last, hrun, ?_⟩
    rw [patchMake, hmain, pure_bind] at hrun
    obtain ⟨hpatches, -⟩ := EStateM.Result.ok.inj hrun
    exact hleads [⟨.equal, [97]⟩, ⟨.insert, [98]⟩] (hpatches ▸ rfl) rfl rfl
      (by unfold NoEcho; decide)
  · exact absurd hmany (by decide)

end AnarchNet.DiffMatchPatch
