import AnarchNet.DiffMatchPatch.Merge
import AnarchNet.Lib.Search

/-!
# Cleaning up diffs

`diff_cleanupSemantic`, `diff_cleanupSemanticLossless` and `diff_cleanupEfficiency` of
`diff_match_patch.h`. The loops of the first and the last one walk over the list with a stack of
equalities, turn an equality on top of the stack into a deletion and an insertion, and walk back.
`Cursor` is the list before the cursor, cut at the equalities on the stack.
-/

namespace AnarchNet.DiffMatchPatch

open FileSystem EditScript

/-! ## Walking over a list -/

/-- The list before the cursor: the diffs before the first equality of the stack, and the equalities
of the stack with the diffs behind each. Everything stands the last one first. -/
structure Cursor where
  base : Diffs
  stack : List (Bytes × Diffs)

namespace Cursor

/-- The equalities of a stack and the diffs behind them. -/
def spread : List (Bytes × Diffs) → Diffs
  | [] => []
  | (text, behind) :: stack => spread stack ++ ⟨.equal, text⟩ :: behind.reverse

/-- The list before the cursor. -/
def front (cursor : Cursor) : Diffs := cursor.base.reverse ++ spread cursor.stack

/-- The beginning of the list. -/
def start : Cursor := { base := [], stack := [] }

/-- Go on behind a diff. -/
def pass (cursor : Cursor) (diff : Diff) : Cursor :=
  match cursor.stack with
  | [] => { cursor with base := diff :: cursor.base }
  | (text, behind) :: stack => { cursor with stack := (text, diff :: behind) :: stack }

/-- Go on behind an equality and put it on the stack. -/
def push (cursor : Cursor) (text : Bytes) : Cursor :=
  { cursor with stack := (text, []) :: cursor.stack }

/-- Empty the stack. -/
def clear (cursor : Cursor) : Cursor := { base := cursor.front.reverse, stack := [] }

/-- Walk back to the equality on top of the stack, take it off the stack and split it: what stands
before it, the two records in its place, and what stood behind it. -/
def split (cursor : Cursor) (lastequality : Bytes) : Option (Cursor × Diffs × Diffs) :=
  match cursor.stack with
  | [] => none
  | (text, behind) :: stack =>
      some ({ cursor with stack := stack }, [⟨.delete, lastequality⟩, ⟨.insert, text⟩],
        behind.reverse)

/-- Throw away the equality on top of the stack and fall back to the one below it, or to the start:
what stands before the cursor then, and what stands behind it. -/
def fallBack (cursor : Cursor) : Cursor × Diffs :=
  match cursor.stack with
  | (text, behind) :: (other, between) :: stack =>
      ({ cursor with stack := (other, []) :: stack },
        between.reverse ++ ⟨.equal, text⟩ :: behind.reverse)
  | _ => (start, cursor.front)

section Lists

variable {cursor : Cursor}

@[simp] theorem front_start : start.front = [] := rfl

@[simp] theorem front_pass (cursor : Cursor) (diff : Diff) :
    (cursor.pass diff).front = cursor.front ++ [diff] := by
  obtain ⟨base, stack⟩ := cursor
  cases stack with
  | nil => simp [pass, front, spread]
  | cons top stack => simp [pass, front, spread]

@[simp] theorem front_push (cursor : Cursor) (text : Bytes) :
    (cursor.push text).front = cursor.front ++ [⟨.equal, text⟩] := by
  simp [push, front, spread]

@[simp] theorem front_clear (cursor : Cursor) : cursor.clear.front = cursor.front := by
  simp [clear, front, spread]

/-- Falling back moves the cursor only. -/
theorem front_fallBack (cursor : Cursor) :
    cursor.fallBack.1.front ++ cursor.fallBack.2 = cursor.front := by
  unfold fallBack
  split
  · rename_i hstack
    simp [front, spread, hstack]
  · rfl

/-- What a split puts in the place of an equality. -/
theorem front_split {before : Cursor} {records behind : Diffs} {lastequality : Bytes}
    (h : cursor.split lastequality = some (before, records, behind)) :
    ∃ text, records = [⟨.delete, lastequality⟩, ⟨.insert, text⟩] ∧
      cursor.front = before.front ++ ⟨.equal, text⟩ :: behind ∧
        cursor.stack.head?.map Prod.fst = some text := by
  unfold split at h
  split at h
  · cases h
  · rename_i text behind' stack hstack
    obtain ⟨rfl, rfl, rfl⟩ : _ ∧ _ ∧ _ := by simpa using h
    exact ⟨text, rfl, by simp [front, spread, hstack], by simp [hstack]⟩

end Lists

end Cursor

/-- The number of equalities in a list. -/
def equalities (diffs : Diffs) : Nat := diffs.countP (·.operation = .equal)

/-- What is left to do at a cursor: equalities that can be split, and diffs to pass. -/
def ahead (cursor : Cursor) (rest : Diffs) : Nat ×ₗ Nat :=
  toLex (equalities (cursor.front ++ rest), rest.length)

/-- What a turn of a loop over a list may do: it goes on behind the current diff, or it splits an
equality and goes back. -/
inductive Turn (cursor : Cursor) (lastequality : Bytes) (cur : Diff) (rest : Diffs) :
    Cursor → Diffs → Prop where
  | on {after : Cursor} (h : after.front = cursor.front ++ [cur]) :
      Turn cursor lastequality cur rest after rest
  | back {after before : Cursor} {records behind others : Diffs} (hne : lastequality ≠ [])
      (hsplit : cursor.split lastequality = some (before, records, behind))
      (h : after.front ++ others = before.front ++ records ++ behind ++ cur :: rest) :
      Turn cursor lastequality cur rest after others

/-- What the loops remember of the last equality, if anything, is the text of the equality on top of
the stack. -/
def Remembers (cursor : Cursor) (lastequality : Bytes) : Prop :=
  lastequality ≠ [] → cursor.stack.head?.map Prod.fst = some lastequality

namespace Remembers

variable {cursor : Cursor} {lastequality : Bytes}

theorem nothing (cursor : Cursor) : Remembers cursor [] := fun h => absurd rfl h

theorem push (cursor : Cursor) (text : Bytes) : Remembers (cursor.push text) text := fun _ => rfl

theorem pass (h : Remembers cursor lastequality) (diff : Diff) :
    Remembers (cursor.pass diff) lastequality := by
  obtain ⟨base, stack⟩ := cursor
  cases stack with
  | nil => exact h
  | cons top stack => simpa [Remembers, Cursor.pass] using h

/-- **The stack is not empty** where the last equality is split. -/
theorem splits (h : Remembers cursor lastequality) (hne : lastequality ≠ []) :
    ∃ before records behind, cursor.split lastequality = some (before, records, behind) := by
  obtain ⟨base, stack⟩ := cursor
  cases stack with
  | nil => exact absurd (h hne) (by simp)
  | cons top stack => exact ⟨_, _, _, rfl⟩

end Remembers

namespace Turn

variable {cursor after : Cursor} {lastequality : Bytes} {cur : Diff} {rest others : Diffs}

/-- A turn comes closer to the end. -/
theorem ahead_lt (h : Turn cursor lastequality cur rest after others) :
    ahead after others < ahead cursor (cur :: rest) := by
  rw [ahead, ahead, Prod.Lex.toLex_lt_toLex]
  cases h with
  | on h =>
      right
      simp [h, equalities]
  | back hne hsplit h =>
      obtain ⟨text, rfl, hfront, -⟩ := Cursor.front_split hsplit
      left
      rw [h, hfront]
      simp [equalities]

/-- A turn keeps both texts, if what is remembered is the equality on top of the stack. -/
theorem same (h : Turn cursor lastequality cur rest after others)
    (hlast : Remembers cursor lastequality) :
    Same (after.front ++ others) (cursor.front ++ cur :: rest) := by
  cases h with
  | on h =>
      rw [h]
      simpa using Same.refl _
  | back hne hsplit h =>
      obtain ⟨text, rfl, hfront, htop⟩ := Cursor.front_split hsplit
      obtain rfl : lastequality = text := Option.some.inj ((hlast hne).symm.trans htop)
      rw [h, hfront]
      constructor <;> simp

end Turn

/-- A loop over a list: the cursor and the last equality among its variables, and its turns. A turn
that remembers the equality on top of the stack finds the equality that it splits. -/
structure Walk (σ : Type) where
  cursor : σ → Cursor
  lastequality : σ → Bytes
  step : σ → Diff → Diffs → Option (σ × Diffs)
  turn : ∀ {state cur rest after others}, step state cur rest = some (after, others) →
    Turn (cursor state) (lastequality state) cur rest (cursor after) others
  finds : ∀ {state} cur rest, Remembers (cursor state) (lastequality state) →
    ∃ after others, step state cur rest = some (after, others) ∧
      Remembers (cursor after) (lastequality after)

namespace Walk

variable {σ : Type} (walk : Walk σ)

/-- The variables behind the last diff. -/
def loop (state : σ) : Diffs → Option σ
  | [] => some state
  | cur :: rest =>
      match hstep : walk.step state cur rest with
      | none => none
      | some (after, others) =>
          have := (walk.turn hstep).ahead_lt
          loop after others
termination_by rest => ahead (walk.cursor state) rest
decreasing_by exact this

/-- **The loop** comes to its end and keeps both texts. -/
theorem loop_spec (state : σ) (h : Remembers (walk.cursor state) (walk.lastequality state))
    (rest : Diffs) : ∃ last, walk.loop state rest = some last ∧
      Same (walk.cursor last).front ((walk.cursor state).front ++ rest) := by
  fun_induction walk.loop state rest with
  | case1 state => exact ⟨state, rfl, by simpa using Same.refl _⟩
  | case2 state cur rest hstep =>
      obtain ⟨after, others, hsome, -⟩ := walk.finds cur rest h
      rw [hstep] at hsome
      cases hsome
  | case3 state cur rest after others hstep _ ih =>
      obtain ⟨next, behind, hsome, hnext⟩ := walk.finds cur rest h
      rw [hstep] at hsome
      obtain ⟨rfl, rfl⟩ := Prod.mk.inj (Option.some.inj hsome)
      obtain ⟨last, hlast, hsame⟩ := ih hnext
      exact ⟨last, hlast, hsame.trans ((walk.turn hstep).same h)⟩

end Walk

/-! ## Semantic cleanup -/

/-- The variables of the loop of `diff_cleanupSemantic`. -/
structure Semantic where
  cursor : Cursor
  insertions1 : Nat
  deletions1 : Nat
  insertions2 : Nat
  deletions2 : Nat
  lastequality : Bytes
  changes : Bool

namespace Semantic

/-- The variables before the loop. -/
def start : Semantic where
  cursor := .start
  insertions1 := 0
  deletions1 := 0
  insertions2 := 0
  deletions2 := 0
  lastequality := []
  changes := false

/-- An equality is found. -/
def found (state : Semantic) (text : Bytes) : Semantic where
  cursor := state.cursor.push text
  insertions1 := state.insertions2
  deletions1 := state.deletions2
  insertions2 := 0
  deletions2 := 0
  lastequality := text
  changes := state.changes

/-- An insertion or deletion is counted. -/
def count (state : Semantic) (edit : Diff) : Semantic :=
  if edit.operation = .insert then
    { state with insertions2 := state.insertions2 + edit.text.length }
  else { state with deletions2 := state.deletions2 + edit.text.length }

/-- The last equality is not longer than what changed before it, nor than what changed after it. -/
def trivial (state : Semantic) : Bool :=
  state.lastequality ≠ [] ∧
    state.lastequality.length ≤ max state.insertions1 state.deletions1 ∧
      state.lastequality.length ≤ max state.insertions2 state.deletions2

/-- One turn of the loop: the variables afterwards, and the list behind the cursor. Nothing if there
is no equality on the stack to split. -/
def step (state : Semantic) (cur : Diff) (rest : Diffs) : Option (Semantic × Diffs) :=
  if cur.operation = .equal then some (state.found cur.text, rest)
  else
    let state := state.count cur
    if state.trivial then
      (state.cursor.split state.lastequality).map fun (before, records, behind) =>
        ({ start with cursor := before.fallBack.1, changes := true },
          before.fallBack.2 ++ records ++ behind ++ cur :: rest)
    else some ({ state with cursor := state.cursor.pass cur }, rest)

@[simp] theorem cursor_count (state : Semantic) (edit : Diff) :
    (state.count edit).cursor = state.cursor := by
  unfold count
  split <;> rfl

@[simp] theorem lastequality_count (state : Semantic) (edit : Diff) :
    (state.count edit).lastequality = state.lastequality := by
  unfold count
  split <;> rfl

/-- Only what is remembered is split. -/
theorem lastequality_ne_nil {state : Semantic} (h : state.trivial = true) :
    state.lastequality ≠ [] := by
  simp only [trivial, Bool.decide_and, Bool.and_eq_true, decide_eq_true_eq] at h
  exact h.1

variable {state after : Semantic} {cur : Diff} {rest others : Diffs}

/-- A turn of the loop. -/
theorem turn (h : state.step cur rest = some (after, others)) :
    Turn state.cursor state.lastequality cur rest after.cursor others := by
  unfold step at h
  split at h
  · rename_i hequal
    obtain ⟨rfl, rfl⟩ := Prod.mk.inj (Option.some.inj h)
    refine .on ?_
    rw [eq_of_equal hequal]
    exact Cursor.front_push _ _
  · simp only at h
    split at h
    · rename_i htrivial
      obtain ⟨⟨before, records, behind⟩, hsplit, heq⟩ := Option.map_eq_some_iff.mp h
      obtain ⟨rfl, rfl⟩ := Prod.mk.inj heq
      have hne := lastequality_ne_nil htrivial
      rw [lastequality_count] at hne hsplit
      rw [cursor_count] at hsplit
      refine .back hne hsplit ?_
      rw [← before.front_fallBack]
      simp only [List.append_assoc]
    · obtain ⟨rfl, rfl⟩ := Prod.mk.inj (Option.some.inj h)
      exact .on (by simp)

/-- A turn finds what it splits, and remembers the equality on top of the stack. -/
theorem step_spec (cur : Diff) (rest : Diffs) (h : Remembers state.cursor state.lastequality) :
    ∃ after others, state.step cur rest = some (after, others) ∧
      Remembers after.cursor after.lastequality := by
  unfold step
  split
  · exact ⟨_, _, rfl, Remembers.push _ _⟩
  · simp only
    split
    · rename_i htrivial
      have hne := lastequality_ne_nil htrivial
      obtain ⟨before, records, behind, hsplit⟩ : ∃ before records behind,
          (state.count cur).cursor.split (state.count cur).lastequality =
            some (before, records, behind) := by
        refine Remembers.splits ?_ hne
        rwa [cursor_count, lastequality_count]
      rw [hsplit]
      exact ⟨_, _, rfl, Remembers.nothing _⟩
    · exact ⟨_, _, rfl, by simpa using h.pass cur⟩

/-- The loop of `diff_cleanupSemantic`. -/
def walk : Walk Semantic where
  cursor := cursor
  lastequality := lastequality
  step := step
  turn := turn
  finds := step_spec

end Semantic

/-! ## Cleanup for efficiency -/

/-- `Diff_EditCost`. -/
def diffEditCost : Nat := 4

/-- The variables of the loop of `diff_cleanupEfficiency`. -/
structure Efficiency where
  cursor : Cursor
  preIns : Bool
  preDel : Bool
  postIns : Bool
  postDel : Bool
  lastequality : Bytes
  changes : Bool

namespace Efficiency

/-- The variables before the loop. -/
def start : Efficiency where
  cursor := .start
  preIns := false
  preDel := false
  postIns := false
  postDel := false
  lastequality := []
  changes := false

/-- An equality is found: it is a candidate, or it can never become one. -/
def found (state : Efficiency) (cur : Diff) : Efficiency :=
  if cur.text.length < diffEditCost ∧ (state.postIns || state.postDel) then
    { state with
      cursor := state.cursor.push cur.text, preIns := state.postIns, preDel := state.postDel,
      lastequality := cur.text, postIns := false, postDel := false }
  else
    { state with
      cursor := (state.cursor.pass cur).clear, lastequality := [], postIns := false,
      postDel := false }

/-- An insertion or deletion is noted. -/
def note (state : Efficiency) (edit : Diff) : Efficiency :=
  if edit.operation = .delete then { state with postDel := true }
  else { state with postIns := true }

/-- The last equality is split: there are edits of both kinds on both sides of it, or it is short
and only one kind is missing. -/
def trivial (state : Efficiency) : Bool :=
  state.lastequality ≠ [] ∧
    ((state.preIns && state.preDel && state.postIns && state.postDel) ∨
      state.lastequality.length < diffEditCost / 2 ∧
        state.preIns.toNat + state.preDel.toNat + state.postIns.toNat + state.postDel.toNat = 3)

/-- One turn of the loop: the variables afterwards, and the list behind the cursor. Nothing if there
is no equality on the stack to split. -/
def step (state : Efficiency) (cur : Diff) (rest : Diffs) : Option (Efficiency × Diffs) :=
  if cur.operation = .equal then some (state.found cur, rest)
  else
    let state := state.note cur
    if state.trivial then
      (state.cursor.split state.lastequality).map fun (before, records, behind) =>
        if state.preIns && state.preDel then
          -- no changes made which could affect a previous entry
          ({ state with
              cursor := (records.foldl Cursor.pass before).clear, postIns := true, postDel := true,
              lastequality := [], changes := true },
            behind ++ cur :: rest)
        else
          ({ state with
              cursor := before.fallBack.1, postIns := false, postDel := false, lastequality := [],
              changes := true },
            before.fallBack.2 ++ records ++ behind ++ cur :: rest)
    else some ({ state with cursor := state.cursor.pass cur }, rest)

@[simp] theorem cursor_note (state : Efficiency) (edit : Diff) :
    (state.note edit).cursor = state.cursor := by
  unfold note
  split <;> rfl

@[simp] theorem lastequality_note (state : Efficiency) (edit : Diff) :
    (state.note edit).lastequality = state.lastequality := by
  unfold note
  split <;> rfl

/-- Passing several diffs. -/
theorem front_foldl_pass (cursor : Cursor) (diffs : Diffs) :
    (diffs.foldl Cursor.pass cursor).front = cursor.front ++ diffs := by
  induction diffs generalizing cursor with
  | nil => simp
  | cons diff diffs ih => simp [ih]

/-- Only what is remembered is split. -/
theorem lastequality_ne_nil {state : Efficiency} (h : state.trivial = true) :
    state.lastequality ≠ [] := by
  simp only [trivial, Bool.decide_and, Bool.and_eq_true, decide_eq_true_eq] at h
  exact h.1

variable {state after : Efficiency} {cur : Diff} {rest others : Diffs}

/-- A turn of the loop. -/
theorem turn (h : state.step cur rest = some (after, others)) :
    Turn state.cursor state.lastequality cur rest after.cursor others := by
  unfold step at h
  split at h
  · rename_i hequal
    obtain ⟨rfl, rfl⟩ := Prod.mk.inj (Option.some.inj h)
    refine .on ?_
    unfold found
    split
    · rw [eq_of_equal hequal]
      exact Cursor.front_push _ _
    · rw [Cursor.front_clear, Cursor.front_pass]
  · simp only at h
    split at h
    · rename_i htrivial
      obtain ⟨⟨before, records, behind⟩, hsplit, heq⟩ := Option.map_eq_some_iff.mp h
      have hne := lastequality_ne_nil htrivial
      rw [lastequality_note] at hne hsplit
      rw [cursor_note] at hsplit
      simp only at heq
      split at heq
      · obtain ⟨rfl, rfl⟩ := Prod.mk.inj heq
        refine .back hne hsplit ?_
        rw [Cursor.front_clear, front_foldl_pass]
        simp only [List.append_assoc]
      · obtain ⟨rfl, rfl⟩ := Prod.mk.inj heq
        refine .back hne hsplit ?_
        rw [← before.front_fallBack]
        simp only [List.append_assoc]
    · obtain ⟨rfl, rfl⟩ := Prod.mk.inj (Option.some.inj h)
      exact .on (by simp)

/-- A turn finds what it splits, and remembers the equality on top of the stack. -/
theorem step_spec (cur : Diff) (rest : Diffs) (h : Remembers state.cursor state.lastequality) :
    ∃ after others, state.step cur rest = some (after, others) ∧
      Remembers after.cursor after.lastequality := by
  unfold step
  split
  · refine ⟨_, _, rfl, ?_⟩
    unfold found
    split
    · exact Remembers.push _ _
    · exact Remembers.nothing _
  · simp only
    split
    · rename_i htrivial
      have hne := lastequality_ne_nil htrivial
      obtain ⟨before, records, behind, hsplit⟩ : ∃ before records behind,
          (state.note cur).cursor.split (state.note cur).lastequality =
            some (before, records, behind) := by
        refine Remembers.splits ?_ hne
        rwa [cursor_note, lastequality_note]
      rw [hsplit, Option.map_some]
      split <;> exact ⟨_, _, rfl, Remembers.nothing _⟩
    · exact ⟨_, _, rfl, by simpa using h.pass cur⟩

/-- The loop of `diff_cleanupEfficiency`. -/
def walk : Walk Efficiency where
  cursor := cursor
  lastequality := lastequality
  step := step
  turn := turn
  finds := step_spec

end Efficiency

/-- Merge the diffs after a loop that changed them. -/
def normalize (changes : Bool) (diffs : Diffs) : Option Diffs :=
  if changes then cleanupMerge diffs else some diffs

/-- Merged or not, both texts stay. -/
theorem normalize_spec (changes : Bool) (diffs : Diffs) :
    ∃ after, normalize changes diffs = some after ∧ Same after diffs := by
  unfold normalize
  split
  · obtain ⟨after, hafter, hsame, -⟩ := cleanupMerge_spec diffs
    exact ⟨after, hafter, hsame⟩
  · exact ⟨diffs, rfl, Same.refl diffs⟩

/-- `diff_cleanupEfficiency`. Nothing if an exception is thrown or the stack is found empty. -/
def cleanupEfficiency (diffs : Diffs) : Option Diffs := do
  let state ← Efficiency.walk.loop .start diffs
  normalize state.changes state.cursor.front

/-- **Cleanup for efficiency** comes to an end, throws nothing and keeps both texts. -/
theorem cleanupEfficiency_same (diffs : Diffs) :
    ∃ after, cleanupEfficiency diffs = some after ∧ Same after diffs := by
  obtain ⟨last, hlast, hloop⟩ : ∃ last, Efficiency.walk.loop .start diffs = some last ∧
      Same last.cursor.front diffs := Efficiency.walk.loop_spec .start (Remembers.nothing _) diffs
  obtain ⟨after, hafter, hsame⟩ := normalize_spec last.changes last.cursor.front
  exact ⟨after, by simp [cleanupEfficiency, hlast, hafter], hsame.trans hloop⟩

/-! ## Lossless cleanup -/

/-- `is_alnum`, in the C locale. -/
def isAlnum (char : UInt8) : Bool :=
  (48 ≤ char && char ≤ 57) || (65 ≤ char && char ≤ 90) || (97 ≤ char && char ≤ 122)

/-- `is_space`, in the C locale. -/
def isSpace (char : UInt8) : Bool := char = 32 || (9 ≤ char && char ≤ 13)

/-- `is_control`. -/
def isControl (char : UInt8) : Bool := char = 10 || char = 13

/-- The text ends with a blank line. -/
def endsBlank (text : Bytes) : Bool :=
  match text.reverse with
  | 10 :: 10 :: _ => true
  | 10 :: 13 :: 10 :: _ => true
  | _ => false

/-- The text without a carriage return at its beginning. -/
def dropReturn (text : Bytes) : Bytes := if text.head? = some 13 then text.drop 1 else text

/-- The text begins with a blank line. -/
def beginsBlank (text : Bytes) : Bool :=
  match dropReturn text with
  | 10 :: rest => (dropReturn rest).head? = some 10
  | _ => false

/-- `diff_cleanupSemanticScore`. -/
def cleanupSemanticScore (one two : Bytes) : Nat :=
  match one.getLast?, two.head? with
  | some last, some first =>
      if !isAlnum last || !isAlnum first then
        if isSpace last || isSpace first then
          if isControl last || isControl first then
            if endsBlank one || beginsBlank two then 4 else 3
          else 2
        else 1
      else 0
  -- edges are the best
  | _, _ => 10

/-- An edit between two equalities. -/
structure Place where
  equality1 : Bytes
  edit : Bytes
  equality2 : Bytes

namespace Place

/-- The scores of both ends of the edit. -/
def score (place : Place) : Nat :=
  cleanupSemanticScore place.equality1 place.edit + cleanupSemanticScore place.edit place.equality2

/-- Shift the edit as far left as possible. -/
def shiftLeft (place : Place) : Place :=
  let commonOffset := commonSuffix place.equality1 place.edit
  let commonString := right place.edit commonOffset
  { equality1 := chop place.equality1 commonOffset
    edit := commonString ++ chop place.edit commonOffset
    equality2 := commonString ++ place.equality2 }

/-- Step character by character right, looking for the best fit. The second equality gets shorter.
-/
def slide (best : Place) (equality1 edit : Bytes) : Bytes → Place
  | [] => best
  | char :: equality2 =>
      match edit with
      | [] => best
      | first :: edit =>
          if first = char then
            let place : Place := ⟨equality1 ++ [first], edit ++ [char], equality2⟩
            slide (if best.score ≤ place.score then place else best) (equality1 ++ [first])
              (edit ++ [char]) equality2
          else best

/-- The best place of an edit. -/
def best (place : Place) : Place :=
  slide place.shiftLeft place.shiftLeft.equality1 place.shiftLeft.edit place.shiftLeft.equality2

/-- Two places of an edit in the same texts. -/
structure Fits (left right : Place) : Prop where
  without : left.equality1 ++ left.equality2 = right.equality1 ++ right.equality2
  between : left.equality1 ++ (left.edit ++ left.equality2) =
    right.equality1 ++ (right.edit ++ right.equality2)

theorem fits_shiftLeft (place : Place) : Fits place.shiftLeft place := by
  obtain ⟨equality1, edit, equality2⟩ := place
  obtain ⟨offset, hoffset⟩ : ∃ offset, commonSuffix equality1 edit = offset := ⟨_, rfl⟩
  have hequality : chop equality1 offset ++ right edit offset = equality1 := by
    rw [← hoffset, ← right_commonSuffix, chop_append_right]
  have hedit := chop_append_right edit offset
  constructor
  · simp only [shiftLeft, hoffset]
    rw [← List.append_assoc, hequality]
  · simp only [shiftLeft, hoffset]
    calc chop equality1 offset ++
          (right edit offset ++ chop edit offset ++ (right edit offset ++ equality2))
        = (chop equality1 offset ++ right edit offset) ++
            ((chop edit offset ++ right edit offset) ++ equality2) := by
          simp only [List.append_assoc]
      _ = equality1 ++ (edit ++ equality2) := by rw [hequality, hedit]

theorem fits_slide {place best : Place} (hbest : Fits best place) {equality1 edit : Bytes}
    (equality2 : Bytes) (h : Fits ⟨equality1, edit, equality2⟩ place) :
    Fits (slide best equality1 edit equality2) place := by
  induction equality2 generalizing best equality1 edit with
  | nil => exact hbest
  | cons char equality2 ih =>
      cases edit with
      | nil => exact hbest
      | cons first edit =>
          rw [slide]
          split
          · rename_i heq
            subst heq
            have hnext : Fits ⟨equality1 ++ [first], edit ++ [first], equality2⟩ place := by
              refine ⟨?_, ?_⟩
              · rw [← h.without]
                simp
              · rw [← h.between]
                simp
            refine ih ?_ hnext
            split
            · exact hnext
            · exact hbest
          · exact hbest

theorem fits_best (place : Place) : Fits place.best place :=
  fits_slide place.fits_shiftLeft _ place.fits_shiftLeft

end Place

/-- The loop of `diff_cleanupSemanticLossless`, from a previous and a current diff on. The two
equalities are not empty together. -/
def losslessFrom (prev cur : Diff) : Diffs → Diffs
  | [] => [prev, cur]
  | next :: rest =>
      if prev.operation = .equal ∧ next.operation = .equal then
        let best := Place.best ⟨prev.text, cur.text, next.text⟩
        if prev.text ≠ best.equality1 then
          if best.equality2 ≠ [] then
            (if best.equality1 ≠ [] then [{ prev with text := best.equality1 }] else []) ++
              losslessFrom { cur with text := best.edit } { next with text := best.equality2 } rest
          else
            losslessFrom { prev with text := best.equality1 } { cur with text := best.edit } rest
        else prev :: losslessFrom cur next rest
      else prev :: losslessFrom cur next rest

/-- `diff_cleanupSemanticLossless`. -/
def cleanupSemanticLossless : Diffs → Diffs
  | prev :: cur :: rest => losslessFrom prev cur rest
  | diffs => diffs

/-- An edit may stand at each of its places. -/
theorem same_of_fits {left right : Place} (h : Place.Fits left right) (operation : Operation) :
    Same [⟨.equal, left.equality1⟩, ⟨operation, left.edit⟩, ⟨.equal, left.equality2⟩]
      [⟨.equal, right.equality1⟩, ⟨operation, right.edit⟩, ⟨.equal, right.equality2⟩] := by
  cases operation with
  | delete => exact ⟨by simpa using h.between, by simpa using h.without⟩
  | insert => exact ⟨by simpa using h.without, by simpa using h.between⟩
  | equal => exact ⟨by simpa using h.between, by simpa using h.between⟩

/-- **Lossless cleanup** keeps both texts. -/
theorem losslessFrom_same (prev cur : Diff) (rest : Diffs) :
    Same (losslessFrom prev cur rest) (prev :: cur :: rest) := by
  induction rest generalizing prev cur with
  | nil => exact Same.refl _
  | cons next rest ih =>
      rw [losslessFrom]
      split
      · rename_i hequal
        obtain ⟨best, hbest⟩ : ∃ best, Place.best ⟨prev.text, cur.text, next.text⟩ = best :=
          ⟨_, rfl⟩
        have hplace := same_of_fits (hbest ▸ Place.fits_best ⟨prev.text, cur.text, next.text⟩)
          cur.operation
        have hwhole : Same (⟨.equal, best.equality1⟩ :: ⟨cur.operation, best.edit⟩ ::
            ⟨.equal, best.equality2⟩ :: rest) (prev :: cur :: next :: rest) := by
          rw [eq_of_equal hequal.1, eq_of_equal hequal.2]
          exact hplace.append (Same.refl rest)
        have hempty : ∀ list : Diffs, Same list (⟨.equal, []⟩ :: list) := fun list =>
          ⟨by simp, by simp⟩
        simp only [hbest, hequal.1, hequal.2]
        split
        · split
          · split
            · exact ((ih _ _).cons _).trans hwhole
            · rename_i hnil
              rw [ne_eq, not_not] at hnil
              rw [hnil] at hwhole
              exact (ih _ _).trans ((hempty _).trans hwhole)
          · rename_i hnil
            rw [ne_eq, not_not] at hnil
            rw [hnil] at hwhole
            refine (ih _ _).trans (Same.trans ?_ hwhole)
            exact ((hempty rest).cons _).cons _
        · exact (ih _ _).cons prev
      · exact (ih _ _).cons prev

/-- So the whole function does. -/
theorem cleanupSemanticLossless_same (diffs : Diffs) :
    Same (cleanupSemanticLossless diffs) diffs := by
  unfold cleanupSemanticLossless
  split
  · exact losslessFrom_same _ _ _
  · exact Same.refl _

/-! ## Overlaps -/

/-- The loop of `diff_commonOverlap`, from a best overlap and a length on. Nothing if `right` throws
because the text is too short. -/
def overlapFrom (text1 text2 : Bytes) (best length : Nat) : Option Nat :=
  if text1.length < length then none
  else match Search.indexOf (right text1 length) text2 0 with
    | none => some best
    | some found =>
        -- both texts are compared at their ends
        if found = 0 ∨ right text1 (length + found) = right text2 (length + found) then
          overlapFrom text1 text2 (length + found) (length + found + 1)
        else overlapFrom text1 text2 best (length + found)
termination_by text1.length + 1 - length
decreasing_by all_goals omega

/-- `diff_commonOverlap`. -/
def commonOverlap (text1 text2 : Bytes) : Option Nat :=
  -- truncate the longer text
  let trunc1 := if text2.length < text1.length then right text1 text2.length else text1
  let trunc2 := if text1.length < text2.length then text2.take text1.length else text2
  if text1 = [] ∨ text2 = [] then some 0
  else if trunc1 = trunc2 then some (min text1.length text2.length)
  else overlapFrom trunc1 trunc2 0 1

/-- The last loop of `diff_cleanupSemantic`: an overlap of a deletion and an insertion becomes an
equality. -/
def factorOverlaps : Diffs → Option Diffs
  | prev :: cur :: rest =>
      if prev.operation = .delete ∧ cur.operation = .insert then do
        let length ← commonOverlap prev.text cur.text
        let others ← factorOverlaps rest
        if length ≠ 0 then
          return ⟨.delete, chop prev.text length⟩ :: ⟨.equal, cur.text.take length⟩ ::
            ⟨.insert, cur.text.drop length⟩ :: others
        else return prev :: cur :: others
      else do
        let others ← factorOverlaps (cur :: rest)
        return prev :: others
  | diffs => some diffs

/-- `diff_cleanupSemantic`. Nothing if an exception is thrown or the stack is found empty. -/
def cleanupSemantic (diffs : Diffs) : Option Diffs := do
  let state ← Semantic.walk.loop .start diffs
  let merged ← normalize state.changes state.cursor.front
  factorOverlaps (cleanupSemanticLossless merged)

/-- A copy that is found ends inside of the text. -/
theorem add_le_of_indexOf {pattern text : Bytes} {found : Nat}
    (h : Search.indexOf pattern text 0 = some found) : pattern.length + found ≤ text.length := by
  rw [Search.indexOf_eq (Nat.zero_le _), Option.map_eq_some_iff] at h
  obtain ⟨⟨front, back⟩, hcut, rfl⟩ := h
  have htext := Delimited.eq_of_cut hcut
  rw [List.drop_zero] at htext
  rw [htext]
  simp only [List.length_append]
  omega

theorem length_right {text : Bytes} {count : Nat} (h : count ≤ text.length) :
    (right text count).length = count := by
  rw [right, List.length_drop]
  omega

/-- The search for an overlap of two different texts of one length comes to an end before the texts
do. -/
theorem overlapFrom_le {text1 text2 : Bytes} (hlength : text1.length = text2.length)
    (hne : text1 ≠ text2) {best length : Nat} (hbest : best ≤ text1.length)
    (hle : length ≤ text1.length) :
    ∃ overlap, overlapFrom text1 text2 best length = some overlap ∧ overlap ≤ text1.length := by
  induction hmeasure : text1.length + 1 - length using Nat.strongRecOn generalizing best length with
  | ind measure ih =>
      subst hmeasure
      rw [overlapFrom, if_neg (Nat.not_lt.2 hle)]
      split
      · exact ⟨best, rfl, hbest⟩
      · rename_i found hfound
        have hend := add_le_of_indexOf hfound
        rw [length_right hle, ← hlength] at hend
        split
        · rename_i hmatch
          -- the whole texts do not match
          have hless : length + found ≠ text1.length := by
            intro hwhole
            have hright : ∀ text : Bytes, text.length = text1.length →
                right text (length + found) = text := fun text htext => by
              rw [right, hwhole, htext, Nat.sub_self, List.drop_zero]
            apply hne
            rcases hmatch with hzero | heq
            · rw [hzero, Nat.add_zero] at hwhole hright
              rw [hright text1 rfl] at hfound
              rw [Search.indexOf_eq (Nat.zero_le _), Option.map_eq_some_iff] at hfound
              obtain ⟨⟨front, back⟩, hcut, -⟩ := hfound
              have htext := Delimited.eq_of_cut hcut
              have hsum := congrArg List.length htext
              simp only [List.drop_zero, List.length_append] at hsum
              obtain rfl : front = [] := List.length_eq_zero_iff.1 (by omega)
              obtain rfl : back = [] := List.length_eq_zero_iff.1 (by omega)
              simpa using htext.symm
            · rwa [hright text1 rfl, hright text2 hlength.symm] at heq
          exact ih _ (by omega) hend (by omega) rfl
        · rename_i hmismatch
          have hpos : found ≠ 0 := fun hzero => hmismatch (Or.inl hzero)
          exact ih _ (by omega) hbest hend rfl

/-- An overlap is not longer than either text. -/
theorem commonOverlap_le (text1 text2 : Bytes) : ∃ overlap,
    commonOverlap text1 text2 = some overlap ∧ overlap ≤ text1.length ∧ overlap ≤ text2.length := by
  obtain ⟨trunc1, htrunc1⟩ : ∃ trunc1,
      (if text2.length < text1.length then right text1 text2.length else text1) = trunc1 :=
    ⟨_, rfl⟩
  obtain ⟨trunc2, htrunc2⟩ : ∃ trunc2,
      (if text1.length < text2.length then text2.take text1.length else text2) = trunc2 :=
    ⟨_, rfl⟩
  have hlength1 : trunc1.length = min text1.length text2.length := by
    rw [← htrunc1]
    split
    · rw [length_right (by omega)]
      omega
    · omega
  have hlength2 : trunc2.length = min text1.length text2.length := by
    rw [← htrunc2]
    split
    · rw [List.length_take]
    · omega
  simp only [commonOverlap, htrunc1, htrunc2]
  by_cases hnil : text1 = [] ∨ text2 = []
  · exact ⟨0, if_pos hnil, Nat.zero_le _, Nat.zero_le _⟩
  · rw [if_neg hnil]
    rw [not_or] at hnil
    have hpos1 := List.length_pos_of_ne_nil hnil.1
    have hpos2 := List.length_pos_of_ne_nil hnil.2
    by_cases heq : trunc1 = trunc2
    · exact ⟨_, if_pos heq, Nat.min_le_left _ _, Nat.min_le_right _ _⟩
    · rw [if_neg heq]
      obtain ⟨overlap, hoverlap, hle⟩ := overlapFrom_le (hlength1.trans hlength2.symm) heq
        (Nat.zero_le _) (show 1 ≤ trunc1.length by omega)
      exact ⟨overlap, hoverlap, by omega, by omega⟩

/-- The last loop throws nothing and keeps the new text and the length of the old one. -/
theorem factorOverlaps_new (diffs : Diffs) : ∃ after, factorOverlaps diffs = some after ∧
    newText after = newText diffs ∧ (oldText after).length = (oldText diffs).length := by
  fun_induction factorOverlaps diffs with
  | case1 prev cur rest hedits ih =>
      obtain ⟨others, hothers, hnew, hold⟩ := ih
      obtain ⟨overlap, hoverlap, hle1, hle2⟩ := commonOverlap_le prev.text cur.text
      obtain ⟨deletion, rfl⟩ : ∃ text, prev = ⟨.delete, text⟩ := ⟨prev.text, by rw [← hedits.1]⟩
      obtain ⟨insertion, rfl⟩ : ∃ text, cur = ⟨.insert, text⟩ := ⟨cur.text, by rw [← hedits.2]⟩
      simp only at hoverlap hle1 hle2
      simp only [hoverlap, hothers, Option.bind_eq_bind, Option.bind_some]
      split
      · refine ⟨_, rfl, ?_, ?_⟩
        · -- the equality and what is left of the insertion
          simp only [newText_cons, new_delete, new_insert, new_equal, List.nil_append, hnew]
          rw [← List.append_assoc, List.take_append_drop]
        · simp only [oldText_cons, old_delete, old_insert, old_equal, List.nil_append,
            List.length_append, hold, length_chop, List.length_take]
          omega
      · exact ⟨_, rfl, by simp [hnew], by simp [hold]⟩
  | case2 prev cur rest _ ih =>
      obtain ⟨others, hothers, hnew, hold⟩ := ih
      refine ⟨prev :: others, by simp [hothers], ?_, ?_⟩
      · rw [newText_cons, newText_cons, hnew]
      · rw [oldText_cons, oldText_cons, List.length_append, List.length_append, hold]
  | case3 diffs => exact ⟨diffs, rfl, rfl, rfl⟩

/-- **Semantic cleanup** comes to an end, throws nothing and keeps the new text. -/
theorem cleanupSemantic_new (diffs : Diffs) : ∃ after, cleanupSemantic diffs = some after ∧
    newText after = newText diffs ∧ (oldText after).length = (oldText diffs).length := by
  obtain ⟨last, hlast, hloop⟩ : ∃ last, Semantic.walk.loop .start diffs = some last ∧
      Same last.cursor.front diffs := Semantic.walk.loop_spec .start (Remembers.nothing _) diffs
  obtain ⟨merged, hmerged, hsame⟩ := normalize_spec last.changes last.cursor.front
  have hlossless := (cleanupSemanticLossless_same merged).trans (hsame.trans hloop)
  obtain ⟨after, hafter, hnew, hold⟩ := factorOverlaps_new (cleanupSemanticLossless merged)
  refine ⟨after, ?_, hnew.trans hlossless.new, hold.trans (by rw [hlossless.old])⟩
  simp only [cleanupSemantic, hlast, hmerged, Option.bind_eq_bind, Option.bind_some, hafter]

/-- **The cleanups** of every list of diffs come to an end and throw nothing. Merging, the cleanup
for efficiency and the lossless one keep both texts, and merging makes no list heavier. The semantic
cleanup keeps the new text, but of the old one only the length. The source counts the characters in
an `int`, so this is about texts of less than 2^31 of them. -/
theorem cleanups_keep_texts (diffs : Diffs) :
    (∃ after, cleanupMerge diffs = some after ∧ Same after diffs ∧ weight after ≤ weight diffs) ∧
    (∃ after, cleanupEfficiency diffs = some after ∧ Same after diffs) ∧
    Same (cleanupSemanticLossless diffs) diffs ∧
    ∃ after, cleanupSemantic diffs = some after ∧ newText after = newText diffs ∧
      (oldText after).length = (oldText diffs).length :=
  ⟨cleanupMerge_spec diffs, cleanupEfficiency_same diffs, cleanupSemanticLossless_same diffs,
    cleanupSemantic_new diffs⟩

end AnarchNet.DiffMatchPatch
