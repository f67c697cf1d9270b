import AnarchNet.DiffMatchPatch.Patch

/-!
# Applying patches

`patch_apply` and `patch_addPadding` of `diff_match_patch.h`. A patch that finds its old text where
it expects it needs nothing else. What `patch_apply` does with long patches and with texts that are
only similar is a parameter.
-/

namespace AnarchNet.DiffMatchPatch

open FileSystem EditScript Native

/-! ## Padding -/

/-- `nullPadding`. -/
def nullPadding : Bytes := (List.range Patch.margin).map fun x => UInt8.ofNat (x + 1)

namespace Patch

/-- A patch is bumped forward. -/
def bump (patch : Patch) : Patch :=
  { patch with start1 := patch.start1 + margin, start2 := patch.start2 + margin }

/-- The patch with other diffs, which have so many characters more at their beginning. -/
def growFirst (patch : Patch) (diffs : Diffs) (length : Int) : Patch where
  diffs := diffs
  start1 := patch.start1 - length
  start2 := patch.start2 - length
  length1 := patch.length1 + length
  length2 := patch.length2 + length

/-- Add some padding on the start of the first diff. -/
def padFirst (patch : Patch) : Patch :=
  match patch.diffs with
  | [] => patch.growFirst [⟨.equal, nullPadding⟩] margin
  | first :: rest =>
      if first.operation ≠ .equal then
        patch.growFirst (⟨.equal, nullPadding⟩ :: first :: rest) margin
      else if first.text.length < margin then
        patch.growFirst
          ({ first with text := nullPadding.drop first.text.length ++ first.text } :: rest)
          (margin - first.text.length)
      else patch

/-- The patch with other diffs, which have so many characters more at their end. -/
def growLast (patch : Patch) (diffs : Diffs) (length : Int) : Patch :=
  { patch with
    diffs := diffs
    length1 := patch.length1 + length
    length2 := patch.length2 + length }

/-- Add some padding on the end of the last diff. -/
def padLast (patch : Patch) : Patch :=
  match patch.diffs.getLast? with
  | none => patch.growLast [⟨.equal, nullPadding⟩] margin
  | some last =>
      if last.operation ≠ .equal then
        patch.growLast (patch.diffs ++ [⟨.equal, nullPadding⟩]) margin
      else if last.text.length < margin then
        patch.growLast (patch.diffs.dropLast ++
            [{ last with text := last.text ++ nullPadding.take (margin - last.text.length) }])
          (margin - last.text.length)
      else patch

end Patch

/-- `patch_addPadding`. The last patch is taken from the front of the list too. -/
def addPadding : List Patch → List Patch
  | [] => []
  | first :: rest => first.bump.padFirst.padLast :: rest.map Patch.bump

/-! ## Applying -/

/-- What `patch_apply` does with patches that do not fit exactly: `match_bitap`, the pieces of a
long patch in `patch_splitMax`, and the text after an imperfect match, if it is good enough. -/
structure Inexact where
  bitap : (text pattern : Bytes) → (loc : Int) → Except Stop Int
  split : Patch → List Patch
  imperfect : (text : Bytes) → Patch → (start_loc : Int) → (text2 : Bytes) →
    Except Stop (Option Bytes)

/-- The variables of the loop of `patch_apply`. -/
structure Applying where
  text : Bytes
  delta : Int
  results : List Bool

namespace Inexact

variable (inexact : Inexact)

/-- `patch_splitMax`. -/
def splitMax (patches : List Patch) : List Patch :=
  patches.flatMap fun patch =>
    if patch.length1 ≤ (Patch.maxBits : Int) then [patch] else inexact.split patch

/-- `match_main`. -/
def matchMain (text pattern : Bytes) (loc : Int) : Except Stop Int := do
  let loc := max 0 (min loc text.length)
  if text = pattern then return 0
  else if text = [] then return -1
  else if loc + pattern.length ≤ text.length ∧
      (text.drop loc.toNat).take pattern.length = pattern then return loc
  else inexact.bitap text pattern loc

/-- Where the old text of a patch begins, and where its end begins if it is long. -/
def locate (text text1 : Bytes) (expected_loc : Int) : Except Stop (Int × Int) := do
  if Patch.maxBits < text1.length then
    let start_loc ← inexact.matchMain text (text1.take Patch.maxBits) expected_loc
    if start_loc = -1 then return (-1, -1)
    else
      let end_loc ← inexact.matchMain text (right text1 Patch.maxBits)
        (expected_loc + text1.length - Patch.maxBits)
      -- without trailing context the patch is dropped
      return (if end_loc = -1 ∨ end_loc ≤ start_loc then -1 else start_loc, end_loc)
  else
    let start_loc ← inexact.matchMain text text1 expected_loc
    return (start_loc, -1)

/-- One turn of the loop of `patch_apply`. -/
def applyStep (state : Applying) (patch : Patch) : Except Stop Applying := do
  let expected_loc := patch.start2 + state.delta
  let text1 := oldText patch.diffs
  let (start_loc, end_loc) ← inexact.locate state.text text1 expected_loc
  if start_loc = -1 then
    -- no match found: the delta of the patch is subtracted
    return { state with
      delta := state.delta - (patch.length2 - patch.length1)
      results := state.results ++ [false] }
  else
    let delta := start_loc - expected_loc
    let text2 ← safeMidLength state.text start_loc
      (if end_loc = -1 then text1.length else end_loc + Patch.maxBits - start_loc)
    if text1 = text2 then
      let back ← safeMid state.text (start_loc + text1.length)
      return {
        text := substr state.text start_loc ++ newText patch.diffs ++ back
        delta := delta
        results := state.results ++ [true] }
    else
      match ← inexact.imperfect state.text patch start_loc text2 with
      | some text =>
          return { text := text, delta := delta, results := state.results ++ [true] }
      | none =>
          return { text := state.text, delta := delta, results := state.results ++ [false] }

/-- `patch_apply`. -/
def patchApply (patches : List Patch) (sourceText : Bytes) : Except Stop (Bytes × List Bool) := do
  if patches = [] then return (sourceText, [])
  else
    let state ← (inexact.splitMax (addPadding patches)).foldlM inexact.applyStep
      { text := nullPadding ++ sourceText ++ nullPadding, delta := 0, results := [] }
    -- strip the padding off
    let text ← safeMidLength state.text nullPadding.length
      (state.text.length - 2 * nullPadding.length)
    return (text, state.results)

end Inexact

/-! ## Padding a patch -/

section Padding

variable {patch : Patch} {front back : Bytes}

theorem length_nullPadding : nullPadding.length = Patch.margin := rfl

theorem Patch.Sits.bump (h : patch.Sits front) : patch.bump.Sits (nullPadding ++ front) := by
  have hstart1 := h.start1
  have hstart2 := h.start2
  refine ⟨?_, ?_, h.length1, h.length2⟩
  · rw [List.length_append, length_nullPadding]
    show patch.start1 + Patch.margin = _
    omega
  · rw [List.length_append, length_nullPadding]
    show patch.start2 + Patch.margin = _
    omega

/-- A patch after padding on its left: it begins earlier, with so many characters of the padding. -/
def Patch.PaddedFirst (patch : Patch) (front : Bytes) (after : Patch) : Prop :=
  ∃ outer extra, outer ++ extra = nullPadding ++ front ∧ after.Sits outer ∧
    oldText after.diffs = extra ++ oldText patch.diffs ∧
    newText after.diffs = extra ++ newText patch.diffs ∧ extra.length ≤ margin

/-- A patch that grows on its left. -/
theorem Patch.Sits.growFirst {outer extra : Bytes} (h : patch.Sits (nullPadding ++ front))
    (hfront : outer ++ extra = nullPadding ++ front) {diffs : Diffs} {size : Int}
    (hold : oldText diffs = extra ++ oldText patch.diffs)
    (hnew : newText diffs = extra ++ newText patch.diffs) (hsize : size = extra.length)
    (hmargin : extra.length ≤ margin) : patch.PaddedFirst front (patch.growFirst diffs size) := by
  rw [← hfront] at h
  have hstart1 := h.start1
  have hstart2 := h.start2
  have hlength1 := h.length1
  have hlength2 := h.length2
  rw [List.length_append] at hstart1 hstart2
  refine ⟨outer, extra, hfront, ⟨?_, ?_, ?_, ?_⟩, hold, hnew, hmargin⟩
  · show patch.start1 - size = outer.length
    omega
  · show patch.start2 - size = outer.length
    omega
  · show patch.length1 + size = (oldText diffs).length
    rw [hold, List.length_append]
    omega
  · show patch.length2 + size = (newText diffs).length
    rw [hnew, List.length_append]
    omega

/-- **Padding on the left**: the patch still fits the padded text. -/
theorem Patch.padFirst_spec (h : patch.Sits (nullPadding ++ front))
    (hfirst : front = [] ∨
      ∃ context rest, patch.diffs = ⟨.equal, context⟩ :: rest ∧ margin ≤ context.length) :
    patch.PaddedFirst front patch.padFirst := by
  -- without so much context, the text begins with the patch
  have hempty : (∀ context rest, patch.diffs = ⟨.equal, context⟩ :: rest →
      ¬ margin ≤ context.length) → front = [] := by
    intro hnone
    rcases hfirst with hfront | ⟨context, rest, hdiffs, hlong⟩
    · exact hfront
    · exact absurd hlong (hnone context rest hdiffs)
  cases hdiffs : patch.diffs with
  | nil =>
      obtain rfl := hempty fun context rest heq => by rw [hdiffs] at heq; cases heq
      rw [Patch.padFirst, hdiffs]
      exact h.growFirst (List.nil_append _) (by simp [hdiffs]) (by simp [hdiffs]) rfl (le_refl _)
  | cons first rest =>
      by_cases hop : first.operation = .equal
      · obtain ⟨text, rfl⟩ : ∃ text, first = ⟨.equal, text⟩ := ⟨first.text, eq_of_equal hop⟩
        by_cases hshort : text.length < margin
        · obtain rfl := hempty fun context others heq => by
            rw [hdiffs] at heq
            cases heq
            exact Nat.not_le.2 hshort
          have hsize : (nullPadding.drop text.length).length = margin - text.length :=
            List.length_drop
          have hfront : nullPadding.take text.length ++ nullPadding.drop text.length =
              nullPadding ++ [] := by
            rw [List.take_append_drop, List.append_nil]
          rw [Patch.padFirst, hdiffs]
          simp only [ne_eq, not_true, if_false, if_pos hshort]
          exact h.growFirst hfront (by simp [hdiffs]) (by simp [hdiffs]) (by omega) (by omega)
        · have hpad : patch.padFirst = patch := by
            rw [Patch.padFirst, hdiffs]
            simp only [ne_eq, not_true, if_false, if_neg hshort]
          rw [hpad]
          exact ⟨_, [], List.append_nil _, h, rfl, rfl, Nat.zero_le _⟩
      · obtain rfl := hempty fun context others heq => by
          rw [hdiffs] at heq
          cases heq
          exact absurd rfl hop
        rw [Patch.padFirst, hdiffs]
        simp only [ne_eq, hop, not_false_eq_true, if_true]
        exact h.growFirst (List.nil_append _) (by simp [hdiffs]) (by simp [hdiffs]) rfl (le_refl _)

/-- A patch after padding on its right: it ends later, with so many characters of the padding. -/
def Patch.PaddedLast (patch : Patch) (front back : Bytes) (after : Patch) : Prop :=
  ∃ extra outer, extra ++ outer = back ++ nullPadding ∧ after.Sits front ∧
    oldText after.diffs = oldText patch.diffs ++ extra ∧
    newText after.diffs = newText patch.diffs ++ extra ∧ extra.length ≤ margin

/-- A patch that grows on its right. -/
theorem Patch.Sits.growLast {extra outer : Bytes} (h : patch.Sits front)
    (hback : extra ++ outer = back ++ nullPadding) {diffs : Diffs} {size : Int}
    (hold : oldText diffs = oldText patch.diffs ++ extra)
    (hnew : newText diffs = newText patch.diffs ++ extra) (hsize : size = extra.length)
    (hmargin : extra.length ≤ margin) :
    patch.PaddedLast front back (patch.growLast diffs size) := by
  have hlength1 := h.length1
  have hlength2 := h.length2
  refine ⟨extra, outer, hback, ⟨h.start1, h.start2, ?_, ?_⟩, hold, hnew, hmargin⟩
  · show patch.length1 + size = (oldText diffs).length
    rw [hold, List.length_append]
    omega
  · show patch.length2 + size = (newText diffs).length
    rw [hnew, List.length_append]
    omega

/-- **Padding on the right**: the patch still fits the padded text. -/
theorem Patch.padLast_spec (h : patch.Sits front)
    (hlast : back = [] ∨
      ∃ rest context, patch.diffs = rest ++ [⟨.equal, context⟩] ∧ margin ≤ context.length) :
    patch.PaddedLast front back patch.padLast := by
  have hempty : (∀ rest context, patch.diffs = rest ++ [⟨.equal, context⟩] →
      ¬ margin ≤ context.length) → back = [] := by
    intro hnone
    rcases hlast with hback | ⟨rest, context, hdiffs, hlong⟩
    · exact hback
    · exact absurd hlong (hnone rest context hdiffs)
  rcases List.eq_nil_or_concat patch.diffs with hdiffs | ⟨rest, last, hdiffs⟩
  · obtain rfl := hempty fun rest context heq => by rw [hdiffs] at heq; simp at heq
    rw [Patch.padLast, hdiffs, List.getLast?_nil]
    exact h.growLast (List.append_nil _) (by simp [hdiffs]) (by simp [hdiffs]) rfl (le_refl _)
  · rw [List.concat_eq_append] at hdiffs
    have hget : patch.diffs.getLast? = some last := by rw [hdiffs, List.getLast?_concat]
    by_cases hop : last.operation = .equal
    · obtain ⟨text, rfl⟩ : ∃ text, last = ⟨.equal, text⟩ := ⟨last.text, eq_of_equal hop⟩
      by_cases hshort : text.length < margin
      · obtain rfl := hempty fun others context heq => by
          rw [hdiffs] at heq
          cases (List.append_inj' heq rfl).2
          exact Nat.not_le.2 hshort
        have hsize : (nullPadding.take (margin - text.length)).length = margin - text.length := by
          rw [List.length_take, length_nullPadding]
          omega
        rw [Patch.padLast, hget, hdiffs]
        simp only [ne_eq, not_true, if_false, if_pos hshort, List.dropLast_concat]
        exact h.growLast (List.take_append_drop (margin - text.length) nullPadding)
          (by simp [hdiffs]) (by simp [hdiffs]) (by omega) (by omega)
      · have hpad : patch.padLast = patch := by
          rw [Patch.padLast, hget]
          simp only [ne_eq, not_true, if_false, if_neg hshort]
        rw [hpad]
        exact ⟨[], _, List.nil_append _, h, (List.append_nil _).symm, (List.append_nil _).symm,
          Nat.zero_le _⟩
    · obtain rfl := hempty fun others context heq => by
        rw [hdiffs] at heq
        cases (List.append_inj' heq rfl).2
        exact absurd rfl hop
      rw [Patch.padLast, hget]
      simp only [ne_eq, hop, not_false_eq_true, if_true]
      exact h.growLast (List.append_nil _) (by simp) (by simp) rfl (le_refl _)

/-- Padding on the left leaves a long equality at the end alone. -/
theorem Patch.last_padFirst (hlast : back = [] ∨
      ∃ rest context, patch.diffs = rest ++ [⟨.equal, context⟩] ∧ margin ≤ context.length) :
    back = [] ∨ ∃ rest context, patch.padFirst.diffs = rest ++ [⟨.equal, context⟩] ∧
      margin ≤ context.length := by
  rcases hlast with hback | ⟨rest, context, hdiffs, hlong⟩
  · exact Or.inl hback
  · right
    cases rest with
    | nil =>
        have hpad : patch.padFirst = patch := by
          rw [Patch.padFirst, hdiffs]
          simp only [List.nil_append, ne_eq, not_true, if_false, if_neg (Nat.not_lt.2 hlong)]
        exact ⟨[], context, by rw [hpad, hdiffs], hlong⟩
    | cons first rest =>
        rw [Patch.padFirst, hdiffs, List.cons_append]
        simp only
        split
        · exact ⟨⟨.equal, nullPadding⟩ :: first :: rest, context, rfl, hlong⟩
        · split
          · exact ⟨_ :: rest, context, rfl, hlong⟩
          · exact ⟨first :: rest, context, hdiffs, hlong⟩

end Padding

/-! ## Patches that fit -/

namespace Inexact

variable (inexact : Inexact) {patch : Patch} {front back pattern text1 text2 : Bytes}

/-- A perfect match at the perfect spot. -/
theorem matchMain_exact : inexact.matchMain (front ++ (pattern ++ back)) pattern front.length =
    .ok front.length := by
  obtain ⟨text, htext⟩ : ∃ text, front ++ (pattern ++ back) = text := ⟨_, rfl⟩
  have hlength := congrArg List.length htext
  rw [List.length_append, List.length_append] at hlength
  have hloc : max 0 (min (front.length : Int) text.length) = front.length := by omega
  rw [htext, matchMain]
  simp only [hloc]
  by_cases hwhole : text = pattern
  · have hzero : front.length = 0 := by
      rw [hwhole] at hlength
      omega
    rw [if_pos hwhole, hzero]
    rfl
  · have hne : text ≠ [] := by
      intro hempty
      rw [hempty, List.length_nil] at hlength
      exact hwhole (hempty.trans (List.eq_nil_of_length_eq_zero (by omega)).symm)
    rw [if_neg hwhole, if_neg hne, if_pos]
    · rfl
    · rw [← htext, Int.toNat_natCast, List.drop_left, List.take_left, htext]
      refine ⟨?_, rfl⟩
      omega

/-- **A patch that fits** replaces its old text. -/
theorem applyStep_exact (hstart : patch.start2 = front.length)
    (hshort : (oldText patch.diffs).length ≤ Patch.maxBits) (results : List Bool) :
    inexact.applyStep
        { text := front ++ (oldText patch.diffs ++ back), delta := 0, results := results } patch =
      .ok {
        text := front ++ (newText patch.diffs ++ back)
        delta := 0
        results := results ++ [true] } := by
  have hlocate : inexact.locate (front ++ (oldText patch.diffs ++ back)) (oldText patch.diffs)
      front.length = .ok ((front.length : Int), -1) := by
    rw [locate, if_neg (Nat.not_lt.2 hshort), inexact.matchMain_exact]
    rfl
  have htext2 : safeMidLength (front ++ (oldText patch.diffs ++ back)) front.length
      (oldText patch.diffs).length = .ok (oldText patch.diffs) := by
    rw [safeMidLength_of_le (by omega) (by simp; omega) (by omega), Int.toNat_natCast,
      Int.toNat_natCast, List.drop_left, List.take_left]
  have hback : safeMid (front ++ (oldText patch.diffs ++ back))
      (front.length + (oldText patch.diffs).length) = .ok back := by
    rw [safeMid_of_le (by omega) (by simp), ← Nat.cast_add, Int.toNat_natCast, ← List.drop_drop,
      List.drop_left, List.drop_left]
  have hfront : substr (front ++ (oldText patch.diffs ++ back)) front.length = front := by
    rw [substr, if_neg (by omega), Int.toNat_natCast, List.take_left]
  have hfound : ¬ (front.length : Int) = -1 := by omega
  simp only [applyStep, hstart, add_zero, hlocate, htext2, hback, hfront, bind, Except.bind,
    if_neg hfound, if_true, List.append_assoc, sub_self]
  rfl

end Inexact

/-- Patches of which each finds its old text where it starts, in the text that the ones before it
have made. -/
inductive Replaces : List Patch → Bytes → Bytes → Prop
  | nil (text : Bytes) : Replaces [] text text
  | cons {patch : Patch} {patches : List Patch} {front back last : Bytes}
      (start : patch.start2 = front.length) (length : patch.length1 = (oldText patch.diffs).length)
      (short : patch.length1 ≤ Patch.maxBits)
      (rest : Replaces patches (front ++ (newText patch.diffs ++ back)) last) :
      Replaces (patch :: patches) (front ++ (oldText patch.diffs ++ back)) last

section Replaces

variable {patch : Patch} {patches : List Patch} {front back text text1 text2 : Bytes}

/-- Without patches nothing is replaced. -/
theorem Replaces.eq_of_nil (h : Replaces [] text1 text2) : text1 = text2 := by
  cases h
  rfl

/-- None of the patches is long. -/
theorem Replaces.splitMax (h : Replaces patches text1 text2) (inexact : Inexact) :
    inexact.splitMax patches = patches := by
  induction h with
  | nil text => rfl
  | cons start length short rest ih =>
      rw [Inexact.splitMax] at ih ⊢
      rw [List.flatMap_cons, if_pos short, ih, List.singleton_append]

/-- **The loop** of `patch_apply` replaces one text after the other. -/
theorem Replaces.foldlM_applyStep (h : Replaces patches text1 text2) (inexact : Inexact)
    (results : List Bool) :
    patches.foldlM inexact.applyStep { text := text1, delta := 0, results := results } =
      .ok { text := text2, delta := 0, results := results ++ patches.map fun _ => true } := by
  induction h generalizing results with
  | nil text =>
      rw [List.map_nil, List.append_nil]
      rfl
  | cons start length short rest ih =>
      rw [List.foldlM_cons, inexact.applyStep_exact start (by omega)]
      refine (ih _).trans ?_
      rw [List.append_assoc]
      rfl

/-- A text inside of the padding. -/
def padded (text : Bytes) : Bytes := nullPadding ++ text ++ nullPadding

/-- The padding is stripped off. -/
theorem safeMidLength_padded (text : Bytes) :
    safeMidLength (padded text) nullPadding.length
      ((padded text).length - 2 * nullPadding.length) = .ok text := by
  have hsize : (padded text).length = text.length + 2 * nullPadding.length := by
    rw [padded, List.length_append, List.length_append]
    omega
  have hrest : ((padded text).length : Int) - 2 * nullPadding.length = text.length := by
    rw [hsize]
    omega
  rw [hrest, safeMidLength_of_le (by omega) (by omega) (by omega), Int.toNat_natCast,
    Int.toNat_natCast, padded, List.append_assoc, List.drop_left, List.take_left]

/-- What fits the padded text is applied to the text. -/
theorem Replaces.patchApply (h : Replaces (addPadding patches) (padded text1) (padded text2))
    (inexact : Inexact) :
    inexact.patchApply patches text1 = .ok (text2, patches.map fun _ => true) := by
  have hloop := h.foldlM_applyStep inexact []
  have hsplit := h.splitMax inexact
  unfold Inexact.patchApply
  split
  · rename_i hempty
    rw [hempty] at h ⊢
    have heq : padded text1 = padded text2 := h.eq_of_nil
    have htext := safeMidLength_padded text1
    rw [heq, safeMidLength_padded] at htext
    rw [Except.ok.inj htext]
    rfl
  · have hresults : ((addPadding patches).map fun _ => true) = patches.map fun _ => true := by
      cases patches with
      | nil => rfl
      | cons first rest => rw [addPadding, List.map_cons, List.map_cons, List.map_map]; rfl
    rw [hsplit]
    show (do
      let state ← (addPadding patches).foldlM inexact.applyStep
        { text := padded text1, delta := 0, results := [] }
      let text ← safeMidLength state.text nullPadding.length
        (state.text.length - 2 * nullPadding.length)
      return (text, state.results) : Except Stop (Bytes × List Bool)) = _
    rw [hloop, hresults, List.nil_append]
    show (do
      let text ← safeMidLength (padded text2) nullPadding.length
        ((padded text2).length - 2 * nullPadding.length)
      return (text, patches.map fun _ => true) : Except Stop (Bytes × List Bool)) = _
    rw [safeMidLength_padded]
    rfl

/-- The padded text around a part of the text. -/
theorem padded_around (front middle back : Bytes) : padded (front ++ (middle ++ back)) =
    (nullPadding ++ front) ++ (middle ++ (back ++ nullPadding)) := by
  rw [padded]
  simp only [List.append_assoc]

/-- Patches that are only bumped fit the padded text. -/
theorem Leads.bump (h : Leads patches text1 text2)
    (hshort : ∀ patch ∈ patches, patch.length1 + 2 * Patch.margin ≤ Patch.maxBits) :
    Replaces (patches.map Patch.bump) (padded text1) (padded text2) := by
  induction h with
  | nil text => exact .nil _
  | @cons patch _ _ _ _ belongs rest ih =>
      obtain ⟨hfirst, hrest⟩ := List.forall_mem_cons.1 hshort
      have htail := ih hrest
      rw [padded_around] at htail ⊢
      have hsits := belongs.sits.bump
      have hlength : patch.bump.length1 ≤ (Patch.maxBits : Int) := by
        show patch.length1 ≤ _
        omega
      exact .cons hsits.start2 hsits.length1 hlength htail

/-- **Padding** keeps patches in their places. -/
theorem Leads.addPadding (h : Leads patches text1 text2)
    (hshort : ∀ patch ∈ patches, patch.length1 + 2 * Patch.margin ≤ Patch.maxBits) :
    Replaces (addPadding patches) (padded text1) (padded text2) := by
  cases h with
  | nil text => exact .nil _
  | cons belongs rest =>
    rename_i patch patches front back
    obtain ⟨hfirst, hrest⟩ := List.forall_mem_cons.1 hshort
    obtain ⟨outer, extra, houter, hsits, hold, hnew, hextra⟩ :=
      Patch.padFirst_spec belongs.sits.bump belongs.first
    obtain ⟨extra', outer', houter', hsits', hold', hnew', hextra'⟩ :=
      Patch.padLast_spec hsits (Patch.last_padFirst belongs.last)
    rw [DiffMatchPatch.addPadding]
    obtain ⟨after, hafter⟩ : ∃ after, patch.bump.padFirst.padLast = after := ⟨_, rfl⟩
    rw [hafter] at hsits' hold' hnew' ⊢
    rw [hold] at hold'
    rw [hnew] at hnew'
    -- the padded text around the padded patch
    have haround : ∀ middle : Bytes,
        padded (front ++ (middle ++ back)) = outer ++ ((extra ++ middle ++ extra') ++ outer') := by
      intro middle
      calc padded (front ++ (middle ++ back))
          = (nullPadding ++ front) ++ (middle ++ (back ++ nullPadding)) := padded_around _ _ _
        _ = (outer ++ extra) ++ (middle ++ (extra' ++ outer')) := by rw [houter, houter']
        _ = outer ++ ((extra ++ middle ++ extra') ++ outer') := by simp only [List.append_assoc]
    have htext1 := haround (oldText patch.diffs)
    have htext2 := haround (newText patch.diffs)
    rw [show extra ++ oldText patch.diffs ++ extra' = oldText after.diffs from hold'.symm] at htext1
    rw [show extra ++ newText patch.diffs ++ extra' = newText after.diffs from hnew'.symm] at htext2
    have hlength : after.length1 ≤ (Patch.maxBits : Int) := by
      have hlength1 := belongs.sits.length1
      have hbump : (oldText patch.bump.diffs).length = (oldText patch.diffs).length := rfl
      rw [hsits'.length1, hold', List.length_append, List.length_append]
      omega
    have htail := rest.bump hrest
    rw [htext2] at htail
    rw [htext1]
    exact .cons hsits'.start2 hsits'.length1 hlength htail

/-- **Patches that are not long** do what they are made for. -/
theorem patchApply_spec (h : Leads patches text1 text2)
    (hshort : ∀ patch ∈ patches, patch.length1 + 2 * Patch.margin ≤ Patch.maxBits)
    (inexact : Inexact) :
    inexact.patchApply patches text1 = .ok (text2, patches.map fun _ => true) :=
  (h.addPadding hshort).patchApply inexact

end Replaces

/-- **`patch_apply`** of patches that `patch_make` has made from diffs, none of them long and no
equality taken for the last one, gives the new text of the diffs, and says that every patch was
applied. The source counts the characters in an `int`, so this is about texts of less than 2^31 of
them. -/
theorem patchApply_makePatches (inexact : Inexact) (diffs : Diffs) (patches : List Patch)
    (hecho : NoEcho diffs) (hpatches : makePatches (oldText diffs) diffs = .ok patches)
    (hshort : ∀ patch ∈ patches, patch.length1 + 2 * Patch.margin ≤ Patch.maxBits) :
    inexact.patchApply patches (oldText diffs) =
      .ok (newText diffs, patches.map fun _ => true) := by
  obtain ⟨made, hmade, hleads⟩ := makePatches_spec diffs hecho
  obtain rfl : made = patches := Except.ok.inj (hmade.symm.trans hpatches)
  exact patchApply_spec hleads hshort inexact

/-- No match, no pieces and no text. -/
def Inexact.nothing : Inexact where
  bitap := fun _ _ _ => .ok (-1)
  split := fun _ => []
  imperfect := fun _ _ _ _ => .ok none

/-- The text `ab` gets a third character. -/
theorem patchApply_makePatches_small :
    Inexact.nothing.patchApply [⟨[⟨.equal, [97, 98]⟩, ⟨.insert, [99]⟩], 0, 0, 2, 3⟩] [97, 98] =
      .ok ([97, 98, 99], [true]) :=
  patchApply_makePatches .nothing [⟨.equal, [97, 98]⟩, ⟨.insert, [99]⟩]
    [⟨[⟨.equal, [97, 98]⟩, ⟨.insert, [99]⟩], 0, 0, 2, 3⟩] (by unfold NoEcho; decide) rfl
    (by simp only [List.forall_mem_singleton]; decide)

end AnarchNet.DiffMatchPatch
