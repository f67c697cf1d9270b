import Mathlib.Data.List.Infix

/-!
# Streams cut by a delimiter

A stream of frames, each followed by a delimiter. `pieces` cuts everything that is complete off a
text and keeps the rest. Cutting what has arrived and later the rest together with what comes next
is cutting all of it at once (`pieces_append`), so a reader may keep the rest between two reads.
`Carries` says which copies of a pattern there are in a text that is put together.
-/

namespace Delimited

variable {α : Type} [DecidableEq α]

/-- A delimiter: it is not empty, and no two copies of it overlap. -/
structure Delimiter (α : Type) [DecidableEq α] where
  text : List α
  ne_nil : text ≠ []
  borderless : ∀ tail ∈ text.tails, tail <+: text → tail = text ∨ tail = []

/-- The text before the first copy of a pattern, and the text behind it. -/
def cut (pattern : List α) : List α → Option (List α × List α)
  | [] => if pattern = [] then some ([], []) else none
  | item :: rest =>
      if pattern <+: item :: rest then some ([], (item :: rest).drop pattern.length)
      else (cut pattern rest).map fun (front, back) => (item :: front, back)

section Cut

variable {pattern text front back : List α}

/-- A cut puts the text together again. -/
theorem eq_of_cut (h : cut pattern text = some (front, back)) :
    text = front ++ pattern ++ back := by
  induction text generalizing front with
  | nil =>
      rw [cut, Option.ite_none_right_eq_some, Option.some.injEq, Prod.mk.injEq] at h
      obtain ⟨rfl, rfl, rfl⟩ := h
      rfl
  | cons item text ih =>
      rw [cut] at h
      split at h
      · rename_i hbegins
        rw [Option.some.injEq, Prod.mk.injEq] at h
        obtain ⟨rfl, rfl⟩ := h
        obtain ⟨rest, hrest⟩ := hbegins
        rw [← hrest, List.drop_left, List.nil_append]
      · obtain ⟨⟨first, rest⟩, hcut, hpair⟩ := Option.map_eq_some_iff.1 h
        rw [Prod.mk.injEq] at hpair
        obtain ⟨rfl, rfl⟩ := hpair
        rw [ih hcut, List.cons_append, List.cons_append]

/-- Nothing is cut off a text without the pattern. -/
theorem cut_eq_none_iff : cut pattern text = none ↔ ¬ pattern <:+: text := by
  induction text with
  | nil => simp [cut]
  | cons item text ih =>
      rw [cut, List.infix_cons_iff, not_or, ← ih]
      split
      · rename_i hbegins
        simp [hbegins]
      · rename_i hbegins
        simp [hbegins]

/-- A cut stays where it is when more text follows. -/
theorem cut_append (h : cut pattern text = some (front, back)) (more : List α) :
    cut pattern (text ++ more) = some (front, back ++ more) := by
  induction text generalizing front with
  | nil =>
      rw [cut, Option.ite_none_right_eq_some, Option.some.injEq, Prod.mk.injEq] at h
      obtain ⟨rfl, rfl, rfl⟩ := h
      cases more with
      | nil => rfl
      | cons item more => simp [cut]
  | cons item text ih =>
      rw [cut] at h
      rw [List.cons_append, cut]
      split at h
      · rename_i hbegins
        rw [Option.some.injEq, Prod.mk.injEq] at h
        obtain ⟨rfl, rfl⟩ := h
        have hstill : pattern <+: item :: (text ++ more) :=
          hbegins.trans (List.prefix_append (item :: text) more)
        rw [if_pos hstill, ← List.cons_append, List.drop_append_of_le_length hbegins.length_le]
      · rename_i hbegins
        obtain ⟨⟨first, rest⟩, hcut, hpair⟩ := Option.map_eq_some_iff.1 h
        rw [Prod.mk.injEq] at hpair
        obtain ⟨rfl, rfl⟩ := hpair
        have hlater : ¬ pattern <+: item :: (text ++ more) := by
          -- the copy that was found ends in the text, so one that begins earlier would as well
          intro hearly
          have hlength := congrArg List.length (eq_of_cut hcut)
          simp only [List.length_append] at hlength
          have hshort : pattern.length ≤ (item :: text).length := by
            rw [List.length_cons]
            omega
          exact hbegins (List.prefix_of_prefix_length_le hearly
            (List.prefix_append (item :: text) more) hshort)
        rw [if_neg hlater, ih hcut, Option.map_some]

end Cut

namespace Delimiter

variable (delimiter : Delimiter α)

/-- What is left behind a cut is shorter. -/
theorem length_lt_of_cut {text front back : List α}
    (h : cut delimiter.text text = some (front, back)) : back.length < text.length := by
  have hlength := congrArg List.length (eq_of_cut h)
  have hpos := List.length_pos_of_ne_nil delimiter.ne_nil
  simp only [List.length_append] at hlength
  omega

/-- The complete frames at the beginning of a text, and the rest. -/
def pieces (text : List α) : List (List α) × List α :=
  match h : cut delimiter.text text with
  | none => ([], text)
  | some (front, back) =>
      have := delimiter.length_lt_of_cut h
      (front :: (pieces back).1, (pieces back).2)
termination_by text.length

variable {delimiter} {text : List α}

/-- A text without the delimiter has no complete frame. -/
theorem pieces_of_none (h : cut delimiter.text text = none) :
    delimiter.pieces text = ([], text) := by
  rw [pieces]
  split
  · rfl
  · rename_i hcut
    rw [h] at hcut
    cases hcut

/-- The first frame, and the frames behind it. -/
theorem pieces_of_some {front back : List α} (h : cut delimiter.text text = some (front, back)) :
    delimiter.pieces text =
      (front :: (delimiter.pieces back).1, (delimiter.pieces back).2) := by
  rw [pieces]
  split
  · rename_i hcut
    rw [h] at hcut
    cases hcut
  · rename_i hcut
    rw [h, Option.some.injEq, Prod.mk.injEq] at hcut
    obtain ⟨rfl, rfl⟩ := hcut
    rfl

/-- The rest has no complete frame. -/
theorem cut_pieces_snd (text : List α) : cut delimiter.text (delimiter.pieces text).2 = none := by
  induction hlength : text.length using Nat.strongRecOn generalizing text with
  | ind length ih =>
      cases hcut : cut delimiter.text text with
      | none => rwa [pieces_of_none hcut]
      | some pair =>
          rw [pieces_of_some hcut]
          exact ih _ (hlength ▸ delimiter.length_lt_of_cut hcut) pair.2 rfl

/-- The frames of a text that arrives in two parts, the rest of the first part being kept. -/
theorem pieces_append (text more : List α) :
    delimiter.pieces (text ++ more) =
      ((delimiter.pieces text).1 ++ (delimiter.pieces ((delimiter.pieces text).2 ++ more)).1,
        (delimiter.pieces ((delimiter.pieces text).2 ++ more)).2) := by
  induction hlength : text.length using Nat.strongRecOn generalizing text with
  | ind length ih =>
      cases hcut : cut delimiter.text text with
      | none => rw [pieces_of_none hcut, List.nil_append]
      | some pair =>
          have hback := ih _ (hlength ▸ delimiter.length_lt_of_cut hcut) pair.2 rfl
          rw [pieces_of_some hcut, pieces_of_some (cut_append hcut more), hback, List.cons_append]

/-- No copy of the delimiter begins in a frame without it and ends behind the frame. -/
theorem not_prefix_frame {item : α} {frame : List α} (h : ¬ delimiter.text <:+: item :: frame)
    (rest : List α) : ¬ delimiter.text <+: (item :: frame) ++ (delimiter.text ++ rest) := by
  intro hbegins
  by_cases hlong : delimiter.text.length ≤ (item :: frame).length
  · exact h (List.prefix_of_prefix_length_le hbegins (List.prefix_append _ _) hlong).isInfix
  · -- the frame is a beginning of the delimiter, so the two copies would overlap
    obtain ⟨tail, htail⟩ :=
      List.prefix_of_prefix_length_le (List.prefix_append _ _) hbegins (by omega)
    have hsuffix : tail <:+ delimiter.text := ⟨item :: frame, htail⟩
    have hfollows : tail <+: delimiter.text ++ rest := by
      rw [← List.prefix_append_right_inj (item :: frame), htail]
      exact hbegins
    have hborder := List.prefix_of_prefix_length_le hfollows (List.prefix_append _ _)
      hsuffix.length_le
    have hlength := congrArg List.length htail
    rw [List.length_append] at hlength
    rcases delimiter.borderless tail ((List.mem_tails _ _).2 hsuffix) hborder with heq | hnil
    · rw [heq, List.length_cons] at hlength
      omega
    · rw [hnil, List.length_nil] at hlength
      omega

/-- A frame without the delimiter is cut off at the delimiter that follows it. -/
theorem cut_frame {frame : List α} (h : ¬ delimiter.text <:+: frame) (rest : List α) :
    cut delimiter.text (frame ++ (delimiter.text ++ rest)) = some (frame, rest) := by
  induction frame with
  | nil =>
      obtain ⟨first, others, htext⟩ := List.exists_cons_of_ne_nil delimiter.ne_nil
      have hbegins : delimiter.text <+: delimiter.text ++ rest := List.prefix_append _ _
      rw [List.nil_append]
      conv_lhs => rw [htext, List.cons_append, cut]
      rw [← List.cons_append, ← htext, if_pos hbegins, List.drop_left]
  | cons item frame ih =>
      have hlater : ¬ delimiter.text <:+: frame := fun hin => h (List.infix_cons hin)
      have hnow := not_prefix_frame h rest
      rw [List.cons_append] at hnow ⊢
      rw [cut, if_neg hnow, ih hlater, Option.map_some]

/-- The frames of a stream, and what follows the last of them. -/
theorem pieces_stream (frames : List (List α)) (tail : List α)
    (hframes : ∀ frame ∈ frames, ¬ delimiter.text <:+: frame) (htail : ¬ delimiter.text <:+: tail) :
    delimiter.pieces ((frames.map (· ++ delimiter.text)).flatten ++ tail) = (frames, tail) := by
  induction frames with
  | nil => exact pieces_of_none (cut_eq_none_iff.2 htail)
  | cons frame frames ih =>
      rw [List.map_cons, List.flatten_cons, List.append_assoc, List.append_assoc,
        pieces_of_some (cut_frame (hframes frame (by simp)) _),
        ih fun other hother => hframes other (by simp [hother])]

end Delimiter

/-! ## Copies of a pattern in a text that is put together -/

section Parts

variable {α : Type}

/-- Items that are not in a pattern do not help to make a copy of it. -/
theorem infix_append_iff_right {pattern left right : List α} (hne : pattern ≠ [])
    (h : ∀ item ∈ left, item ∉ pattern) :
    pattern <:+: left ++ right ↔ pattern <:+: right := by
  induction left with
  | nil => rfl
  | cons item left ih =>
      have hnot : ¬ pattern <+: item :: (left ++ right) := fun hbegins => by
        obtain ⟨first, rest, rfl⟩ := List.exists_cons_of_ne_nil hne
        rw [(List.cons_prefix_cons.1 hbegins).1] at h
        exact h item List.mem_cons_self List.mem_cons_self
      rw [List.cons_append, List.infix_cons_iff, or_iff_right hnot,
        ih fun other hother => h other (List.mem_cons_of_mem _ hother)]

/-- The same for items that follow. -/
theorem infix_append_iff_left {pattern left right : List α} (hne : pattern ≠ [])
    (h : ∀ item ∈ right, item ∉ pattern) :
    pattern <:+: left ++ right ↔ pattern <:+: left := by
  rw [← List.reverse_infix, List.reverse_append, infix_append_iff_right (by simpa using hne)
    (by simpa using h), List.reverse_infix]

section FlatMap

variable {pattern : List α} {f : α → List α}

/-- A beginning stays one when the other items are replaced by texts of others. -/
theorem prefix_flatMap_iff (hkept : ∀ item ∈ pattern, f item = [item])
    (hother : ∀ item, item ∉ pattern → f item ≠ [] ∧ ∀ new ∈ f item, new ∉ pattern)
    {front : List α} (hfront : ∀ item ∈ front, item ∈ pattern) (text : List α) :
    front <+: text.flatMap f ↔ front <+: text := by
  induction front generalizing text with
  | nil => simp
  | cons first front ih =>
      have hfirst := hfront first List.mem_cons_self
      cases text with
      | nil => simp
      | cons item text =>
          rw [List.flatMap_cons]
          by_cases hitem : item ∈ pattern
          · rw [hkept item hitem, List.singleton_append, List.cons_prefix_cons,
              List.cons_prefix_cons, ih fun other h => hfront other (List.mem_cons_of_mem _ h)]
          · obtain ⟨hne, hnew⟩ := hother item hitem
            obtain ⟨new, more, hmade⟩ := List.exists_cons_of_ne_nil hne
            rw [hmade, List.cons_append, List.cons_prefix_cons, List.cons_prefix_cons]
            refine iff_of_false (fun h => ?_) fun h => hitem (h.1 ▸ hfirst)
            exact hnew new (hmade ▸ List.mem_cons_self) (h.1 ▸ hfirst)

/-- The copies of a pattern stay when the other items are replaced by texts of others. -/
theorem infix_flatMap_iff (hne : pattern ≠ []) (hkept : ∀ item ∈ pattern, f item = [item])
    (hother : ∀ item, item ∉ pattern → f item ≠ [] ∧ ∀ new ∈ f item, new ∉ pattern)
    (text : List α) : pattern <:+: text.flatMap f ↔ pattern <:+: text := by
  induction text with
  | nil => rfl
  | cons item text ih =>
      rw [List.infix_cons_iff]
      by_cases hitem : item ∈ pattern
      · have hbegins := prefix_flatMap_iff hkept hother (fun _ h => h) (item :: text)
        rw [List.flatMap_cons, hkept item hitem, List.singleton_append] at hbegins ⊢
        rw [List.infix_cons_iff, hbegins, ih]
      · have hnot : ¬ pattern <+: item :: text := fun hbegins => by
          obtain ⟨first, rest, rfl⟩ := List.exists_cons_of_ne_nil hne
          rw [(List.cons_prefix_cons.1 hbegins).1] at hitem
          exact hitem List.mem_cons_self
        rw [List.flatMap_cons, infix_append_iff_right hne (hother item hitem).2, ih,
          or_iff_right hnot]

end FlatMap

/-- The copies of a pattern of three items in a text are those in its parts, and the text neither
begins nor ends with the item in the middle. -/
structure Carries (first middle last : α) (text : List α) (parts : List (List α)) : Prop where
  head : text.head? ≠ some middle
  getLast : text.getLast? ≠ some middle
  copies : [first, middle, last] <:+: text ↔ ∃ part ∈ parts, [first, middle, last] <:+: part

namespace Carries

variable {first middle last : α} {text more : List α} {parts others : List (List α)}

/-- A text without the item in the middle. -/
theorem of_not_mem (h : middle ∉ text) : Carries first middle last text [] where
  head hhead := h (List.mem_of_head? hhead)
  getLast hlast := h (List.mem_of_getLast? hlast)
  copies := by
    simp only [List.not_mem_nil, false_and, exists_false, iff_false]
    exact fun hcopy => h (hcopy.subset (by simp))

/-- Two texts together: a copy that begins in the first one and ends in the second one has its
middle at the end of the first one or at the beginning of the second one. -/
theorem append (h : Carries first middle last text parts)
    (hmore : Carries first middle last more others) :
    Carries first middle last (text ++ more) (parts ++ others) where
  head := by
    rw [List.head?_append]
    cases hhead : text.head? with
    | none => exact hmore.head
    | some item =>
        have hitem := h.head
        rwa [hhead] at hitem
  getLast := by
    rw [List.getLast?_append]
    cases hlast : more.getLast? with
    | none => exact h.getLast
    | some item =>
        have hitem := hmore.getLast
        rwa [hlast] at hitem
  copies := by
    have hapart : ¬ ∃ front back, front ≠ [] ∧ back ≠ [] ∧ [first, middle, last] = front ++ back ∧
        front <:+ text ∧ back <+: more := by
      rintro ⟨front, back, hfront, hback, hsplit, hends, hbegins⟩
      match front, hfront with
      | [item], _ =>
          obtain ⟨rest, rfl⟩ := hbegins
          obtain ⟨-, rfl⟩ : first = item ∧ [middle, last] = back := by simpa using hsplit
          exact hmore.head rfl
      | [item, other], _ =>
          obtain ⟨rest, rfl⟩ := hends
          obtain ⟨-, rfl, -⟩ : first = item ∧ middle = other ∧ [last] = back := by
            simpa using hsplit
          exact h.getLast (by simp)
      | item :: other :: third :: rest, _ =>
          have hlength := congrArg List.length hsplit
          have hpos := List.length_pos_of_ne_nil hback
          simp only [List.length_cons, List.length_append, List.length_nil] at hlength
          omega
    rw [List.infix_append_iff_ne_nil, h.copies, hmore.copies]
    simp only [hapart, or_false, List.mem_append, or_and_right, exists_or]

/-- A text between two items that are not in the pattern. -/
theorem enclose {left right : α} {part : List α} (hleft : left ∉ [first, middle, last])
    (hright : right ∉ [first, middle, last])
    (h : [first, middle, last] <:+: text ↔ [first, middle, last] <:+: part) :
    Carries first middle last (left :: (text ++ [right])) [part] where
  head := by
    simp only [List.head?_cons, ne_eq, Option.some.injEq]
    rintro rfl
    simp at hleft
  getLast := by
    rw [← List.cons_append, List.getLast?_concat]
    rintro ⟨⟩
    simp at hright
  copies := by
    rw [show left :: (text ++ [right]) = [left] ++ (text ++ [right]) from rfl,
      infix_append_iff_right (by simp) (by simpa using hleft),
      infix_append_iff_left (by simp) (by simpa using hright), h]
    simp

end Carries

end Parts

end Delimited
