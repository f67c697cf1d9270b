import AnarchNet.Lib.Delimited

/-!
# Searching a text by index

`indexOf` and `split` of a scripting language's strings, over any units. `indexOf` looks for the
first copy of a pattern at or after a position, `split` walks over the text once and ends a piece
wherever a copy begins. Both are related to `cut`, the text before and behind the first copy.
`tokens` cuts at single units instead of copies, where units side by side count as one.
-/

namespace Search

open Delimited

variable {α : Type} [DecidableEq α]

/-- Where the first copy of a pattern begins, at or after a position; one behind the end counts as
the end. -/
def indexOf (pattern text : List α) (pos : Nat) : Option Nat :=
  (List.range' (min pos text.length) (text.length + 1 - min pos text.length)).find? fun index =>
    decide (pattern <+: text.drop index)

/-- The pieces of a text when the first one has been read up to here. A copy of the separator ends a
piece, but the empty separator does not end an empty one. -/
def splitFrom (separator : List α) : List α → List α → List (List α)
  | piece, [] => [piece]
  | piece, item :: rest =>
      if separator <+: item :: rest ∧ ¬ (separator = [] ∧ piece = []) then
        piece :: splitFrom separator [] ((item :: rest).drop separator.length)
      else splitFrom separator (piece ++ [item]) rest
termination_by piece rest => (rest.length, piece.length)
decreasing_by
  · rename_i h
    obtain ⟨-, hsome⟩ := h
    simp only [List.length_drop, List.length_cons, List.length_nil, Prod.lex_def]
    rcases Nat.eq_zero_or_pos separator.length with hzero | hpos
    · have hpiece : piece ≠ [] := fun hnil => hsome ⟨List.length_eq_zero_iff.1 hzero, hnil⟩
      have := List.length_pos_of_ne_nil hpiece
      omega
    · omega
  · simp only [Prod.lex_def, List.length_cons]
    omega

/-- The pieces of a text. Nothing is left of an empty text split at the empty separator. -/
def split (text separator : List α) : List (List α) :=
  if text = [] ∧ separator = [] then [] else splitFrom separator [] text

variable {pattern text front back : List α}

/-- A search from a position is a cut of what follows it. -/
theorem indexOf_eq {pos : Nat} (hpos : pos ≤ text.length) :
    indexOf pattern text pos = (cut pattern (text.drop pos)).map fun pair => pos + pair.1.length := by
  rw [indexOf, Nat.min_eq_left hpos]
  induction hcount : text.length - pos generalizing pos with
  | zero =>
      -- only the end of the text is left to look at
      obtain rfl : pos = text.length := by omega
      rw [show text.length + 1 - text.length = 1 by omega, List.drop_length]
      by_cases hnil : pattern = []
      · simp [cut, hnil]
      · simp [cut, hnil]
  | succ count ih =>
      have hlt : pos < text.length := by omega
      have hnext := @ih (pos + 1) (by omega) (by omega)
      have hcut : cut pattern (text.drop pos) =
          if pattern <+: text.drop pos then some ([], (text.drop pos).drop pattern.length)
          else (cut pattern (text.drop (pos + 1))).map fun pair => (text[pos] :: pair.1, pair.2) := by
        conv_lhs => rw [List.drop_eq_getElem_cons hlt, cut, ← List.drop_eq_getElem_cons hlt]
      rw [show text.length + 1 - pos = (text.length + 1 - (pos + 1)) + 1 by omega, List.range'_succ,
        List.find?_cons, hnext, hcut]
      by_cases hbegins : pattern <+: text.drop pos
      · simp [hbegins]
      · simp only [hbegins, decide_false, if_false, Option.map_map]
        refine congrArg (fun f => Option.map f (cut pattern (text.drop (pos + 1)))) ?_
        funext pair
        simp only [Function.comp_apply, List.length_cons]
        omega

/-- What is left behind the copy that a search found. -/
theorem drop_of_cut {pos : Nat} (h : cut pattern (text.drop pos) = some (front, back)) :
    text.drop (pos + front.length + pattern.length) = back := by
  rw [Nat.add_assoc, ← List.drop_drop, eq_of_cut h, ← List.length_append, List.drop_left]

/-- The piece that is being read ends at the first copy. -/
theorem splitFrom_eq (hne : pattern ≠ []) (piece text : List α) :
    splitFrom pattern piece text =
      match cut pattern text with
      | none => [piece ++ text]
      | some (front, back) => (piece ++ front) :: splitFrom pattern [] back := by
  induction text generalizing piece with
  | nil => simp [splitFrom, cut, hne]
  | cons item text ih =>
      rw [splitFrom, cut]
      by_cases hbegins : pattern <+: item :: text
      · simp [hbegins, hne]
      · simp only [hbegins, false_and, if_false, ih]
        cases cut pattern text with
        | none => simp
        | some pair => simp

/-- A text without the separator is the only piece. -/
theorem splitFrom_of_none (hne : pattern ≠ []) (h : cut pattern text = none) :
    splitFrom pattern [] text = [text] := by
  rw [splitFrom_eq hne, h, List.nil_append]

/-- The first piece, and the pieces behind it. -/
theorem splitFrom_of_some (hne : pattern ≠ []) (h : cut pattern text = some (front, back)) :
    splitFrom pattern [] text = front :: splitFrom pattern [] back := by
  rw [splitFrom_eq hne, h]
  rfl

/-- Only the empty separator leaves nothing of an empty text. -/
theorem split_eq (hne : pattern ≠ []) (text : List α) :
    split text pattern = splitFrom pattern [] text := by
  rw [split, if_neg fun h => hne h.2]

/-! ## Tokens -/

section Tokens

variable {α : Type} (separator : α → Bool)

/-- The tokens of a text between separators. Separators side by side count as one; the first and the
last token may be empty, and an empty text has one empty token. -/
def tokens : List α → List (List α)
  | [] => [[]]
  | item :: rest =>
      if separator item then
        if rest.head?.any separator then tokens rest else [] :: tokens rest
      else (item :: (tokens rest).headD []) :: (tokens rest).tail

variable {separator} {front rest : List α}

/-- A text without separators is one token. -/
theorem tokens_of_none (h : ∀ item ∈ front, separator item = false) :
    tokens separator front = [front] := by
  induction front with
  | nil => rfl
  | cons item front ih =>
      rw [tokens, h item List.mem_cons_self,
        ih fun other hother => h other (List.mem_cons_of_mem _ hother)]
      rfl

/-- The first token ends at the first separator, if that stands alone. -/
theorem tokens_append_cons {item : α} (h : ∀ other ∈ front, separator other = false)
    (hitem : separator item = true) (hrest : rest.head?.any separator = false) :
    tokens separator (front ++ item :: rest) = front :: tokens separator rest := by
  induction front with
  | nil => rw [List.nil_append, tokens, if_pos hitem, hrest, if_neg Bool.false_ne_true]
  | cons other front ih =>
      rw [List.cons_append, tokens, h other List.mem_cons_self,
        ih fun unit hunit => h unit (List.mem_cons_of_mem _ hunit)]
      rfl

end Tokens

end Search
