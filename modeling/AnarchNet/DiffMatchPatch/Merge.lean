import AnarchNet.Lib.EditScript
import AnarchNet.Lib.FileTree

/-!
# Merging diffs

`diff_commonPrefix`, `diff_commonSuffix` and `diff_cleanupMerge` of `diff_match_patch.h`. A list
under a cursor is split there: the diffs before the cursor stand the last one first. The first pass
of `diff_cleanupMerge` merges what stands side by side, the second one shifts a single edit over an
equality, and after a shift both start again. `weight` says why this comes to an end.
-/

namespace AnarchNet.DiffMatchPatch

open FileSystem EditScript

/-- `Diff`. -/
abbrev Diff := Edit UInt8

/-- `Diffs`. -/
abbrev Diffs := List Diff

/-! ## Common ends -/

/-- `diff_commonPrefix`. -/
def commonPrefix : Bytes → Bytes → Nat
  | x :: text1, y :: text2 => if x = y then commonPrefix text1 text2 + 1 else 0
  | _, _ => 0

/-- `diff_commonSuffix`. -/
def commonSuffix (text1 text2 : Bytes) : Nat := commonPrefix text1.reverse text2.reverse

/-- `right`. -/
def right (text : Bytes) (count : Nat) : Bytes := text.drop (text.length - count)

/-- The text without so many bytes at its end. -/
def chop (text : Bytes) (count : Nat) : Bytes := text.take (text.length - count)

section Ends

variable (text1 text2 : Bytes)

theorem commonPrefix_le : commonPrefix text1 text2 ≤ text1.length ∧
    commonPrefix text1 text2 ≤ text2.length := by
  induction text1 generalizing text2 with
  | nil => simp [commonPrefix]
  | cons x text1 ih =>
      cases text2 with
      | nil => simp [commonPrefix]
      | cons y text2 =>
          have hrest := ih text2
          rw [commonPrefix, List.length_cons, List.length_cons]
          split <;> omega

theorem take_commonPrefix :
    text1.take (commonPrefix text1 text2) = text2.take (commonPrefix text1 text2) := by
  induction text1 generalizing text2 with
  | nil => simp [commonPrefix]
  | cons x text1 ih =>
      cases text2 with
      | nil => simp [commonPrefix]
      | cons y text2 =>
          rw [commonPrefix]
          split
          · rename_i heq
            rw [List.take_succ_cons, List.take_succ_cons, ih, heq]
          · rfl

theorem commonSuffix_le : commonSuffix text1 text2 ≤ text1.length ∧
    commonSuffix text1 text2 ≤ text2.length := by
  simpa [commonSuffix] using commonPrefix_le text1.reverse text2.reverse

theorem right_commonSuffix :
    right text1 (commonSuffix text1 text2) = right text2 (commonSuffix text1 text2) := by
  have h := take_commonPrefix text1.reverse text2.reverse
  rw [List.take_reverse, List.take_reverse] at h
  exact List.reverse_injective h

/-- A text is what is left and what was chopped off. -/
theorem chop_append_right (count : Nat) : chop text1 count ++ right text1 count = text1 :=
  List.take_append_drop _ _

theorem length_chop (count : Nat) : (chop text1 count).length = text1.length - count := by
  rw [chop, List.length_take]
  omega

end Ends

/-! ## The first pass -/

/-- Add a common prefix of a length to the equality before the cursor, or make one at the beginning
of the list. An exception is thrown if there is an edit before the cursor. -/
def growEqual (front : Diffs) (commonlength : Nat) (text : Bytes) : Option Diffs :=
  if commonlength = 0 then some front
  else match front with
    | [] => some [⟨.equal, text.take commonlength⟩]
    | prev :: rest =>
        if prev.operation ≠ .equal then none
        else some ({ prev with text := prev.text ++ text.take commonlength } :: rest)

/-- Insert a merged record before the cursor, unless it is empty. -/
def insertMerged (front : Diffs) (operation : Operation) (text : Bytes) : Diffs :=
  if text = [] then front else ⟨operation, text⟩ :: front

/-- The branch of `diff_cleanupMerge` at an equality behind several edits: the diffs before it and
the equality itself afterwards. -/
def mergeRun (front run : Diffs) (cur : Diff) : Option (Diffs × Diff) := do
  let textDelete := oldText run
  let textInsert := newText run
  let both := run.any (·.operation = .delete) && run.any (·.operation = .insert)
  -- factor out a common prefix
  let commonlength := if both then commonPrefix textInsert textDelete else 0
  let front ← growEqual front commonlength textInsert
  let textInsert := textInsert.drop commonlength
  let textDelete := textDelete.drop commonlength
  -- factor out a common suffix
  let commonlength := if both then commonSuffix textInsert textDelete else 0
  let cur := { cur with text := right textInsert commonlength ++ cur.text }
  let front := insertMerged front .delete (chop textDelete commonlength)
  let front := insertMerged front .insert (chop textInsert commonlength)
  return (front, cur)

/-- One turn of the first loop of `diff_cleanupMerge`. The state has the diffs before the edits that
came since the last equality, and these edits. -/
def mergeStep (state : Diffs × Diffs) (cur : Diff) : Option (Diffs × Diffs) :=
  let (front, run) := state
  if cur.operation = .equal then
    if 1 < run.length then do
      let (front, cur) ← mergeRun front run cur
      return (cur :: front, [])
    else match run, front with
      -- the last diff was an equality too
      | [], prev :: front => some ({ prev with text := prev.text ++ cur.text } :: front, [])
      | _, _ => some (cur :: (run.reverse ++ front), [])
  else some (front, run ++ [cur])

/-- The dummy entry at the end of the list. -/
def dummy : Diff := ⟨.equal, []⟩

/-- Remove the last entry if its text is empty. -/
def popEmpty (diffs : Diffs) : Diffs :=
  if diffs.getLast?.any (·.text = []) then diffs.dropLast else diffs

/-- The first pass of `diff_cleanupMerge`. -/
def mergePass (diffs : Diffs) : Option Diffs := do
  let (front, run) ← (diffs ++ [dummy]).foldlM mergeStep ([], [])
  return popEmpty (front.reverse ++ run)

/-! ## The second pass -/

/-- The second loop of `diff_cleanupMerge`, from a previous and a current diff on, and whether a
shift was made. -/
def shiftFrom (prev cur : Diff) : Diffs → Diffs × Bool
  | [] => ([prev, cur], false)
  | next :: rest =>
      if prev.operation = .equal ∧ next.operation = .equal then
        if prev.text <:+ cur.text then
          -- shift the edit over the previous equality
          let cur := { cur with text := prev.text ++ chop cur.text prev.text.length }
          let next := { next with text := prev.text ++ next.text }
          match rest with
          | [] => ([cur, next], true)
          | after :: rest => (cur :: (shiftFrom next after rest).1, true)
        else if next.text <+: cur.text then
          -- shift the edit over the next equality
          let prev := { prev with text := prev.text ++ next.text }
          let cur := { cur with text := cur.text.drop next.text.length ++ next.text }
          match rest with
          | [] => ([prev, cur], true)
          | after :: rest => (prev :: (shiftFrom cur after rest).1, true)
        else (prev :: (shiftFrom cur next rest).1, (shiftFrom cur next rest).2)
      else (prev :: (shiftFrom cur next rest).1, (shiftFrom cur next rest).2)

/-- The second pass of `diff_cleanupMerge`. -/
def shiftPass : Diffs → Diffs × Bool
  | prev :: cur :: rest => shiftFrom prev cur rest
  | diffs => (diffs, false)

/-! ## What the passes keep -/

/-- The diffs before a run of edits are none, or the last one is an equality. -/
def AtEquality (front : Diffs) : Prop := ∀ prev ∈ front.head?, prev.operation = .equal

section Runs

variable {front run : Diffs} {cur : Diff}

/-- An equality is its text. -/
theorem eq_of_equal (h : cur.operation = .equal) : cur = ⟨.equal, cur.text⟩ := by
  rw [← h]

/-- A run of edits changes what it deletes and what it inserts. -/
theorem changes_run (h : ∀ diff ∈ run, diff.operation ≠ .equal) :
    changes run = (oldText run).length + (newText run).length := by
  induction run with
  | nil => rfl
  | cons diff run ih =>
      obtain ⟨hdiff, hrun⟩ := List.forall_mem_cons.1 h
      rw [changes_cons, oldText_cons, newText_cons, ih hrun, List.length_append, List.length_append]
      obtain ⟨operation, text⟩ := diff
      cases operation with
      | delete => simp only [changes_delete, old_delete, new_delete, List.length_nil]; omega
      | insert => simp only [changes_insert, old_insert, new_insert, List.length_nil]; omega
      | equal => exact absurd rfl hdiff

/-- A common prefix becomes an equality before the cursor. -/
theorem growEqual_spec (h : AtEquality front) (count : Nat) (text : Bytes) :
    ∃ after, growEqual front count text = some after ∧
      Same after.reverse (front.reverse ++ [⟨.equal, text.take count⟩]) ∧
        changes after = changes front ∧ (count = 0 → after = front) := by
  by_cases hzero : count = 0
  · subst hzero
    exact ⟨front, if_pos rfl, ⟨by simp, by simp⟩, rfl, fun _ => rfl⟩
  · cases front with
    | nil => exact ⟨_, if_neg hzero, Same.refl _, rfl, fun h => absurd h hzero⟩
    | cons prev rest =>
        have hprev : prev.operation = .equal := h prev rfl
        refine ⟨⟨.equal, prev.text ++ text.take count⟩ :: rest, ?_, ?_, ?_,
          fun h => absurd h hzero⟩
        · rw [growEqual, if_neg hzero]
          simp only [hprev, ne_eq, not_true_eq_false, if_false]
        · rw [eq_of_equal hprev]
          constructor <;> simp
        · rw [eq_of_equal hprev]
          simp

/-- Inserting a record adds its text and its length. -/
theorem insertMerged_spec (front : Diffs) (operation : Operation) (h : operation ≠ .equal)
    (text : Bytes) :
    Same (insertMerged front operation text).reverse (front.reverse ++ [⟨operation, text⟩]) ∧
      changes (insertMerged front operation text) = changes front + text.length ∧
        (insertMerged front operation text).length ≤ front.length + 1 := by
  unfold insertMerged
  split
  · rename_i hnil
    subst hnil
    cases operation with
    | equal => exact absurd rfl h
    | delete => exact ⟨⟨by simp, by simp⟩, rfl, Nat.le_succ _⟩
    | insert => exact ⟨⟨by simp, by simp⟩, rfl, Nat.le_succ _⟩
  · rw [List.reverse_cons, changes_cons]
    cases operation with
    | equal => exact absurd rfl h
    | delete => exact ⟨Same.refl _, Nat.add_comm _ _, Nat.le_refl _⟩
    | insert => exact ⟨Same.refl _, Nat.add_comm _ _, Nat.le_refl _⟩

/-- Two texts from what is factored out at both ends. -/
theorem factor (text other : Bytes) {first last : Nat} (hfirst : text.take first = other.take first)
    (hlast : right (text.drop first) last = right (other.drop first) last) :
    other = text.take first ++ (chop (other.drop first) last ++ right (text.drop first) last) := by
  rw [hfirst, hlast, chop_append_right, List.take_append_drop]

/-- **Merging a run.** The texts stay as they are. Something common is factored out, or the records
do not become more. -/
theorem mergeRun_spec (hfront : AtEquality front) (hcur : cur.operation = .equal)
    (hrun : ∀ diff ∈ run, diff.operation ≠ .equal) (hlength : 1 < run.length) :
    ∃ front' cur', mergeRun front run cur = some (front', cur') ∧ cur'.operation = .equal ∧
      Same (front'.reverse ++ [cur']) (front.reverse ++ run ++ [cur]) ∧
        weight front'.reverse ≤ weight (front.reverse ++ run) ∧
          (cur'.text = cur.text ∨ changes front'.reverse < changes (front.reverse ++ run)) := by
  have hchanges := changes_run hrun
  set inserted := newText run with hinserted
  set deleted := oldText run with hdeleted
  obtain ⟨first, hfirst, htake, hfirstLe, hfirstLe'⟩ : ∃ first,
      (if (run.any (·.operation = .delete) && run.any (·.operation = .insert)) = true
        then commonPrefix inserted deleted else 0) = first ∧
      inserted.take first = deleted.take first ∧ first ≤ inserted.length ∧
        first ≤ deleted.length := by
    refine ⟨_, rfl, ?_⟩
    split
    · exact ⟨take_commonPrefix _ _, commonPrefix_le _ _⟩
    · exact ⟨rfl, Nat.zero_le _, Nat.zero_le _⟩
  obtain ⟨last, hlast, hright, hlastLe, hlastLe'⟩ : ∃ last,
      (if (run.any (·.operation = .delete) && run.any (·.operation = .insert)) = true
        then commonSuffix (inserted.drop first) (deleted.drop first) else 0) = last ∧
      right (inserted.drop first) last = right (deleted.drop first) last ∧
        last ≤ (inserted.drop first).length ∧ last ≤ (deleted.drop first).length := by
    refine ⟨_, rfl, ?_⟩
    split
    · exact ⟨right_commonSuffix _ _, commonSuffix_le _ _⟩
    · exact ⟨by simp only [right, Nat.sub_zero, List.drop_length], Nat.zero_le _, Nat.zero_le _⟩
  -- the diffs before the cursor with the common prefix
  obtain ⟨grown, hgrown, hsame, hsize, hnone⟩ := growEqual_spec hfront first inserted
  obtain ⟨middle, hmiddle⟩ : ∃ middle,
      insertMerged grown .delete (chop (deleted.drop first) last) = middle := ⟨_, rfl⟩
  obtain ⟨merged, hmerged⟩ : ∃ merged,
      insertMerged middle .insert (chop (inserted.drop first) last) = merged := ⟨_, rfl⟩
  obtain ⟨hdelSame, hdelChanges, hdelLength⟩ := insertMerged_spec grown .delete (by decide)
    (chop (deleted.drop first) last)
  obtain ⟨hinsSame, hinsChanges, hinsLength⟩ := insertMerged_spec middle .insert (by decide)
    (chop (inserted.drop first) last)
  rw [hmiddle] at hdelSame hdelChanges hdelLength
  rw [hmerged] at hinsSame hinsChanges hinsLength
  rw [length_chop, List.length_drop] at hdelChanges hinsChanges
  rw [List.length_drop] at hlastLe hlastLe'
  refine ⟨merged, ⟨cur.operation, right (inserted.drop first) last ++ cur.text⟩, ?_, hcur, ?_, ?_,
    ?_⟩
  · simp only [mergeRun, ← hinserted, ← hdeleted, hfirst, hlast, hgrown, hmiddle, hmerged,
      Option.bind_eq_bind, Option.bind_some]
    rfl
  · -- the records one after the other
    have hrecords := (hinsSame.trans (hdelSame.append (Same.refl _))).trans
      ((hsame.append (Same.refl _)).append (Same.refl _))
    have hold := factor inserted deleted htake hright
    have hnew : inserted = inserted.take first ++
        (chop (inserted.drop first) last ++ right (inserted.drop first) last) :=
      factor inserted inserted rfl rfl
    refine (hrecords.append (Same.refl _)).trans ?_
    rw [eq_of_equal hcur]
    constructor
    · simp only [oldText_append, oldText_cons, oldText_nil, old_equal, old_delete, old_insert,
        List.append_nil, ← hdeleted, List.append_assoc, List.append_cancel_left_eq]
      conv_rhs => rw [hold]
      simp only [List.append_assoc, List.nil_append]
    · simp only [newText_append, newText_cons, newText_nil, new_equal, new_delete, new_insert,
        List.append_nil, List.nil_append, ← hinserted, List.append_assoc,
        List.append_cancel_left_eq]
      conv_rhs => rw [hnew]
      simp only [List.append_assoc]
  · rw [weight_le_iff, changes_append, changes_reverse, changes_reverse, List.length_append,
      List.length_reverse, List.length_reverse]
    by_cases hzero : first = 0
    · have hgrownEq := hnone hzero
      subst hgrownEq
      omega
    · omega
  · rw [changes_append, changes_reverse, changes_reverse]
    by_cases hzero : last = 0
    · subst hzero
      exact Or.inl (by simp only [right, Nat.sub_zero, List.drop_length, List.nil_append])
    · right
      omega

/-- The state of the first loop: the edits since the last equality are edits. -/
def Split (state : Diffs × Diffs) : Prop :=
  AtEquality state.1 ∧ ∀ diff ∈ state.2, diff.operation ≠ .equal

/-- **A turn of the first loop** keeps the texts and makes nothing heavier. -/
theorem mergeStep_spec {state : Diffs × Diffs} (h : Split state) (cur : Diff) :
    ∃ after, mergeStep state cur = some after ∧ Split after ∧
      Same (after.1.reverse ++ after.2) (state.1.reverse ++ state.2 ++ [cur]) ∧
        weight (after.1.reverse ++ after.2) ≤ weight (state.1.reverse ++ state.2 ++ [cur]) := by
  obtain ⟨front, run⟩ := state
  obtain ⟨hfront, hrun⟩ := h
  simp only at hfront hrun
  by_cases hcur : cur.operation = .equal
  · by_cases hlength : 1 < run.length
    · -- the run is merged
      obtain ⟨front', cur', hmerge, hcur', hsame, hweight, -⟩ :=
        mergeRun_spec hfront hcur hrun hlength
      refine ⟨(cur' :: front', []), ?_, ⟨?_, by simp⟩, ?_, ?_⟩
      · simp only [mergeStep, if_pos hcur, if_pos hlength, hmerge]
        rfl
      · intro prev hprev
        rw [← Option.some.inj hprev, hcur']
      · simpa using hsame
      · rw [weight_le_iff] at hweight ⊢
        rw [eq_of_equal hcur, eq_of_equal hcur']
        simp only [List.reverse_cons, List.append_nil, changes_append, changes_cons, changes_equal,
          changes_nil, List.length_append, List.length_singleton] at hweight ⊢
        omega
    · have hequal : ∀ tail : Diffs, AtEquality (cur :: tail) := fun tail prev hprev => by
        rw [← Option.some.inj hprev, hcur]
      cases run with
      | cons diff rest =>
          -- a single edit stays
          obtain rfl : rest = [] := by
            rw [List.length_cons] at hlength
            exact List.length_eq_zero_iff.1 (by omega)
          refine ⟨(cur :: diff :: front, []), ?_, ⟨hequal _, by simp⟩, ?_, ?_⟩
          · simp only [mergeStep, if_pos hcur, if_neg hlength]
            rfl
          · simpa using Same.refl _
          · simp
      | nil =>
          cases front with
          | nil =>
              refine ⟨([cur], []), ?_, ⟨hequal _, by simp⟩, ?_, ?_⟩
              · simp only [mergeStep, if_pos hcur, if_neg hlength]
                rfl
              · simpa using Same.refl _
              · simp
          | cons prev front =>
              -- two equalities become one
              have hprev : prev.operation = .equal := hfront prev rfl
              refine ⟨({ prev with text := prev.text ++ cur.text } :: front, []), ?_,
                ⟨?_, by simp⟩, ?_, ?_⟩
              · simp only [mergeStep, if_pos hcur, if_neg hlength]
              · intro diff hdiff
                rw [← Option.some.inj hdiff]
                exact hprev
              · rw [eq_of_equal hcur, eq_of_equal hprev]
                constructor <;> simp
              · rw [weight_le_iff, eq_of_equal hcur, eq_of_equal hprev]
                simp
  · -- an edit joins the run
    refine ⟨(front, run ++ [cur]), ?_, ⟨hfront, ?_⟩, ?_, ?_⟩
    · simp only [mergeStep, if_neg hcur]
    · intro diff hdiff
      rcases List.mem_append.1 hdiff with hmem | hmem
      · exact hrun diff hmem
      · rw [List.mem_singleton.1 hmem]
        exact hcur
    · rw [List.append_assoc]
    · rw [List.append_assoc]

/-- The turns of the first loop, one after the other. -/
theorem foldlM_mergeStep {state : Diffs × Diffs} (h : Split state) (diffs : Diffs) :
    ∃ after, diffs.foldlM mergeStep state = some after ∧ Split after ∧
      Same (after.1.reverse ++ after.2) (state.1.reverse ++ state.2 ++ diffs) ∧
        weight (after.1.reverse ++ after.2) ≤ weight (state.1.reverse ++ state.2 ++ diffs) := by
  induction diffs generalizing state with
  | nil => exact ⟨state, rfl, h, by simpa using Same.refl _, by simp⟩
  | cons cur diffs ih =>
      obtain ⟨middle, hstep, hsplit, hsame, hweight⟩ := mergeStep_spec h cur
      obtain ⟨after, hrest, hlast, hsame', hweight'⟩ := ih hsplit
      refine ⟨after, ?_, hlast, ?_, ?_⟩
      · rw [List.foldlM_cons, hstep]
        exact hrest
      · have := hsame'.trans (hsame.append (Same.refl diffs))
        rwa [List.append_assoc _ [cur]] at this
      · rw [show cur :: diffs = [cur] ++ diffs from rfl, ← List.append_assoc]
        refine hweight'.trans ?_
        rw [weight_le_iff] at hweight ⊢
        rw [changes_append, changes_append _ diffs, List.length_append,
          @List.length_append _ _ diffs]
        omega

/-- The last entry goes away if its text is empty. -/
theorem popEmpty_concat (diffs : Diffs) (last : Diff) :
    popEmpty (diffs ++ [last]) = if last.text = [] then diffs else diffs ++ [last] := by
  simp [popEmpty]

/-- Without an empty equality at its end a list spells the same texts. -/
theorem popEmpty_spec (diffs : Diffs) {last : Diff} (h : last.operation = .equal) :
    Same (popEmpty (diffs ++ [last])) (diffs ++ [last]) ∧
      weight (popEmpty (diffs ++ [last])) ≤ weight (diffs ++ [last]) := by
  rw [popEmpty_concat]
  split
  · rename_i hempty
    rw [eq_of_equal h, hempty]
    exact ⟨⟨by simp, by simp⟩, by simp [weight_le_iff]⟩
  · exact ⟨Same.refl _, le_refl _⟩

/-- **The first pass** keeps the texts, throws nothing and makes nothing heavier: the dummy entry
goes away again, unless something was factored out into it. -/
theorem mergePass_spec (diffs : Diffs) : ∃ merged, mergePass diffs = some merged ∧
    Same merged diffs ∧ weight merged ≤ weight diffs := by
  have hstart : Split (([], []) : Diffs × Diffs) := ⟨by simp [AtEquality], by simp⟩
  obtain ⟨⟨front, run⟩, hfold, ⟨hfront, hrun⟩, hsame, hweight⟩ := foldlM_mergeStep hstart diffs
  simp only [List.reverse_nil, List.nil_append] at hfront hrun hsame hweight
  -- it is enough to look at the turn for the dummy entry
  suffices hdummy : ∃ after, mergeStep (front, run) dummy = some after ∧
      Same (popEmpty (after.1.reverse ++ after.2)) (front.reverse ++ run) ∧
        weight (popEmpty (after.1.reverse ++ after.2)) ≤ weight (front.reverse ++ run) by
    obtain ⟨after, hstep, hlast, hlastWeight⟩ := hdummy
    refine ⟨_, ?_, hlast.trans hsame, hlastWeight.trans hweight⟩
    rw [mergePass, List.foldlM_append, hfold]
    simp only [Option.bind_eq_bind, Option.bind_some, List.foldlM_cons, hstep, List.foldlM_nil,
      Option.pure_def]
  have hnothing : ∀ list : Diffs, Same (list ++ [dummy]) list := fun list =>
    ⟨by simp [dummy], by simp [dummy]⟩
  by_cases hlength : 1 < run.length
  · obtain ⟨front', cur', hmerge, hcur', hsame', hweight', hsuffix⟩ :=
      mergeRun_spec hfront (show dummy.operation = .equal from rfl) hrun hlength
    refine ⟨(cur' :: front', []), ?_, ?_⟩
    · simp only [mergeStep, dummy, if_true, if_pos hlength]
      rw [← dummy, hmerge]
      rfl
    · have hsame'' := hsame'.trans (hnothing _)
      rw [List.append_nil, List.reverse_cons, popEmpty_concat]
      by_cases hempty : cur'.text = []
      · have hcurEq : cur' = dummy := by rw [eq_of_equal hcur', hempty, dummy]
        rw [if_pos hempty]
        rw [hcurEq] at hsame''
        exact ⟨(hnothing _).symm.trans hsame'', hweight'⟩
      · -- what is left in the dummy entry was factored out
        rw [if_neg hempty]
        refine ⟨hsame'', weight_le_iff.2 (Or.inl ?_)⟩
        rw [changes_append, eq_of_equal hcur', changes_cons, changes_equal, changes_nil]
        exact hsuffix.resolve_left hempty
  · have hpushed : ∀ list : Diffs, Same (popEmpty (list ++ [dummy])) list ∧
        weight (popEmpty (list ++ [dummy])) ≤ weight list := fun list => by
      rw [popEmpty_concat, if_pos (show dummy.text = [] from rfl)]
      exact ⟨Same.refl _, le_refl _⟩
    cases run with
    | cons diff rest =>
        obtain rfl : rest = [] := by
          rw [List.length_cons] at hlength
          exact List.length_eq_zero_iff.1 (by omega)
        refine ⟨(dummy :: diff :: front, []), rfl, ?_⟩
        simpa using hpushed (front.reverse ++ [diff])
    | nil =>
        cases front with
        | nil => exact ⟨([dummy], []), rfl, hpushed []⟩
        | cons prev front =>
            have hprev : prev.operation = .equal := hfront prev rfl
            refine ⟨({ prev with text := prev.text ++ [] } :: front, []), rfl, ?_⟩
            rw [List.append_nil]
            simpa using popEmpty_spec front.reverse hprev

end Runs

/-! ## Shifts -/

/-- An edit that ends like the equality before it can stand before this equality. -/
theorem shift_previous (operation : Operation) (front text back : Bytes) :
    Same [⟨operation, front ++ text⟩, ⟨.equal, front ++ back⟩]
        [⟨.equal, front⟩, ⟨operation, text ++ front⟩, ⟨.equal, back⟩] ∧
      changes [⟨operation, front ++ text⟩, ⟨.equal, front ++ back⟩] =
        changes [⟨.equal, front⟩, ⟨operation, text ++ front⟩, ⟨.equal, back⟩] := by
  cases operation with
  | delete => exact ⟨⟨by simp, by simp⟩, by simp [Nat.add_comm]⟩
  | insert => exact ⟨⟨by simp, by simp⟩, by simp [Nat.add_comm]⟩
  | equal => exact ⟨⟨by simp, by simp⟩, by simp⟩

/-- An edit that begins like the equality behind it can stand behind this equality. -/
theorem shift_next (operation : Operation) (front text back : Bytes) :
    Same [⟨.equal, front ++ back⟩, ⟨operation, text ++ back⟩]
        [⟨.equal, front⟩, ⟨operation, back ++ text⟩, ⟨.equal, back⟩] ∧
      changes [⟨.equal, front ++ back⟩, ⟨operation, text ++ back⟩] =
        changes [⟨.equal, front⟩, ⟨operation, back ++ text⟩, ⟨.equal, back⟩] := by
  cases operation with
  | delete => exact ⟨⟨by simp, by simp⟩, by simp [Nat.add_comm]⟩
  | insert => exact ⟨⟨by simp, by simp⟩, by simp [Nat.add_comm]⟩
  | equal => exact ⟨⟨by simp, by simp⟩, by simp⟩

/-- A list that spells the same texts with the same changes, and is shorter by the shifts. -/
structure Shifted (after : Diffs × Bool) (before : Diffs) : Prop where
  same : Same after.1 before
  changes : changes after.1 = changes before
  length : after.1.length + after.2.toNat ≤ before.length

namespace Shifted

variable {after : Diffs × Bool} {before : Diffs}

/-- A diff that stays where it is. -/
theorem cons (h : Shifted after before) (diff : Diff) :
    Shifted (diff :: after.1, after.2) (diff :: before) where
  same := h.same.cons diff
  changes := by rw [changes_cons, changes_cons, h.changes]
  length := by
    have := h.length
    simp only [List.length_cons]
    omega

/-- Two diffs that take the place of three, at the end of the list. -/
theorem last {first second : Diff} {three : Diffs} (hthree : three.length = 3)
    (h : Same [first, second] three ∧
      EditScript.changes [first, second] = EditScript.changes three) :
    Shifted ([first, second], true) three :=
  ⟨h.1, h.2, by simp [hthree]⟩

/-- Two diffs that take the place of three, with the pass going on at the second one. -/
theorem step {first second : Diff} {three rest : Diffs} (hthree : three.length = 3)
    (h : Same [first, second] three ∧ EditScript.changes [first, second] = EditScript.changes three)
    (hrest : Shifted after (second :: rest)) :
    Shifted (first :: after.1, true) (three ++ rest) where
  same := (hrest.same.cons first).trans (h.1.append (Same.refl rest))
  changes := by
    have := h.2
    rw [changes_cons, hrest.changes, changes_append, ← h.2]
    simp only [changes_cons, changes_nil]
    omega
  length := by
    have := hrest.length
    rw [List.length_cons, List.length_append, hthree]
    rw [List.length_cons] at this
    simp only [Bool.toNat_true]
    omega

end Shifted

/-- **The second pass** keeps the texts, and a shift makes the list shorter. -/
theorem shiftFrom_spec (prev cur : Diff) (rest : Diffs) :
    Shifted (shiftFrom prev cur rest) (prev :: cur :: rest) := by
  have hprevious : ∀ {prev cur next : Diff},
      prev.operation = .equal ∧ next.operation = .equal → prev.text <:+ cur.text →
      Same [⟨cur.operation, prev.text ++ chop cur.text prev.text.length⟩,
          ⟨next.operation, prev.text ++ next.text⟩] [prev, cur, next] ∧
        changes [⟨cur.operation, prev.text ++ chop cur.text prev.text.length⟩,
          ⟨next.operation, prev.text ++ next.text⟩] = changes [prev, cur, next] := by
    intro prev cur next hequal hsuffix
    obtain ⟨text, htext⟩ := hsuffix
    have h := shift_previous cur.operation prev.text text next.text
    rw [htext, ← eq_of_equal hequal.1, ← eq_of_equal hequal.2] at h
    rw [hequal.2, ← htext, chop, List.length_append, Nat.add_sub_cancel, List.take_left]
    exact h
  have hnext : ∀ {prev cur next : Diff},
      prev.operation = .equal ∧ next.operation = .equal → next.text <+: cur.text →
      Same [⟨prev.operation, prev.text ++ next.text⟩,
          ⟨cur.operation, cur.text.drop next.text.length ++ next.text⟩] [prev, cur, next] ∧
        changes [⟨prev.operation, prev.text ++ next.text⟩,
          ⟨cur.operation, cur.text.drop next.text.length ++ next.text⟩] =
            changes [prev, cur, next] := by
    intro prev cur next hequal hprefix
    obtain ⟨text, htext⟩ := hprefix
    have h := shift_next cur.operation prev.text text next.text
    rw [htext, ← eq_of_equal hequal.1, ← eq_of_equal hequal.2] at h
    rw [hequal.1, ← htext, List.drop_left]
    exact h
  fun_induction shiftFrom prev cur rest with
  | case1 prev cur => exact ⟨Same.refl _, rfl, le_refl _⟩
  | case2 prev cur next hequal hsuffix => exact .last rfl (hprevious hequal hsuffix)
  | case3 prev cur next hequal hsuffix _ _ after rest ih =>
      exact .step rfl (hprevious hequal hsuffix) ih
  | case4 prev cur next hequal _ hprefix => exact .last rfl (hnext hequal hprefix)
  | case5 prev cur next hequal _ hprefix _ _ after rest ih =>
      exact .step rfl (hnext hequal hprefix) ih
  | case6 prev cur next rest _ _ _ ih => exact ih.cons prev
  | case7 prev cur next rest _ ih => exact ih.cons prev

/-- So the whole pass does. -/
theorem shiftPass_spec (diffs : Diffs) : Shifted (shiftPass diffs) diffs := by
  unfold shiftPass
  split
  · exact shiftFrom_spec _ _ _
  · exact ⟨Same.refl _, rfl, le_refl _⟩

/-! ## Both passes -/

/-- A shift makes the list lighter than it was before both passes. -/
theorem weight_shiftPass {diffs merged : Diffs} (h : mergePass diffs = some merged)
    (hchanges : (shiftPass merged).2 = true) : weight (shiftPass merged).1 < weight diffs := by
  obtain ⟨other, hother, -, hweight⟩ := mergePass_spec diffs
  obtain rfl : merged = other := Option.some.inj (h.symm.trans hother)
  have hshift := shiftPass_spec merged
  have hlength := hshift.length
  refine lt_of_lt_of_le (weight_lt_iff.2 (Or.inr ⟨hshift.changes, ?_⟩)) hweight
  rw [hchanges, Bool.toNat_true] at hlength
  omega

/-- `diff_cleanupMerge`. Nothing if an exception is thrown. -/
def cleanupMerge (diffs : Diffs) : Option Diffs :=
  match h : mergePass diffs with
  | none => none
  | some merged =>
      if hchanges : (shiftPass merged).2 = true then
        have := weight_shiftPass h hchanges
        cleanupMerge (shiftPass merged).1
      else some (shiftPass merged).1
termination_by weight diffs
decreasing_by exact this

/-- **Merging** comes to an end, throws nothing, keeps both texts of every list of diffs, and makes
no list heavier. -/
theorem cleanupMerge_spec (diffs : Diffs) :
    ∃ after, cleanupMerge diffs = some after ∧ Same after diffs ∧ weight after ≤ weight diffs := by
  induction hweight : weight diffs using WellFoundedLT.induction generalizing diffs with
  | ind bound ih =>
      subst hweight
      obtain ⟨merged, hmerged, hsame, hweight⟩ := mergePass_spec diffs
      have hshift := shiftPass_spec merged
      rw [cleanupMerge]
      split
      · rename_i hnone
        rw [hmerged] at hnone
        cases hnone
      · rename_i other hother
        obtain rfl : merged = other := Option.some.inj (hmerged.symm.trans hother)
        split
        · rename_i hchanges
          have hless := weight_shiftPass hmerged hchanges
          obtain ⟨after, hafter, hsame', hweight'⟩ := ih _ hless (shiftPass merged).1 rfl
          exact ⟨after, hafter, hsame'.trans (hshift.same.trans hsame), hweight'.trans hless.le⟩
        · refine ⟨_, rfl, hshift.same.trans hsame, le_trans (weight_le_iff.2 (Or.inr
            ⟨hshift.changes, ?_⟩)) hweight⟩
          have := hshift.length
          omega

/-- Merging that shifts nothing. -/
theorem cleanupMerge_eq_some {diffs merged : Diffs} (hmerge : mergePass diffs = some merged)
    (hshift : (shiftPass merged).2 = false) :
    cleanupMerge diffs = some (shiftPass merged).1 := by
  rw [cleanupMerge]
  split
  · rename_i hnone
    rw [hmerge] at hnone
    cases hnone
  · rename_i other hother
    obtain rfl : merged = other := Option.some.inj (hmerge.symm.trans hother)
    rw [dif_neg (by rw [hshift]; exact Bool.false_ne_true)]

end AnarchNet.DiffMatchPatch
