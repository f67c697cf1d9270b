import Mathlib.Data.List.Basic
import Mathlib.Data.Prod.Lex

/-!
# Edit scripts

A script of deletions, insertions and equalities spells two texts: an old one, without the
insertions, and a new one, without the deletions. Scripts that spell the same two texts can stand
for each other anywhere in a script. The weight of a script is the length of what it changes, and
then the number of its edits.
-/

namespace EditScript

/-- What an edit does. -/
inductive Operation where
  | delete
  | insert
  | equal
  deriving DecidableEq

/-- An edit with its text. -/
structure Edit (α : Type) where
  operation : Operation
  text : List α
  deriving DecidableEq

variable {α : Type}

/-- The part of an edit in the old text. -/
def Edit.old (edit : Edit α) : List α := if edit.operation = .insert then [] else edit.text

/-- The part of an edit in the new text. -/
def Edit.new (edit : Edit α) : List α := if edit.operation = .delete then [] else edit.text

/-- The length of what an edit changes. -/
def Edit.changes (edit : Edit α) : Nat := if edit.operation = .equal then 0 else edit.text.length

/-- The old text. -/
def oldText (script : List (Edit α)) : List α := script.flatMap Edit.old

/-- The new text. -/
def newText (script : List (Edit α)) : List α := script.flatMap Edit.new

/-- The length of what a script changes. -/
def changes : List (Edit α) → Nat
  | [] => 0
  | edit :: script => edit.changes + changes script

/-! ## The two texts -/

section Texts

variable (text : List α) (edit : Edit α) (first second : List (Edit α))

@[simp] theorem old_delete : Edit.old ⟨.delete, text⟩ = text := rfl
@[simp] theorem old_insert : Edit.old ⟨.insert, text⟩ = [] := rfl
@[simp] theorem old_equal : Edit.old ⟨.equal, text⟩ = text := rfl
@[simp] theorem new_delete : Edit.new ⟨.delete, text⟩ = [] := rfl
@[simp] theorem new_insert : Edit.new ⟨.insert, text⟩ = text := rfl
@[simp] theorem new_equal : Edit.new ⟨.equal, text⟩ = text := rfl
@[simp] theorem changes_delete : Edit.changes ⟨.delete, text⟩ = text.length := rfl
@[simp] theorem changes_insert : Edit.changes ⟨.insert, text⟩ = text.length := rfl
@[simp] theorem changes_equal : Edit.changes ⟨.equal, text⟩ = 0 := rfl

@[simp] theorem oldText_nil : oldText ([] : List (Edit α)) = [] := rfl
@[simp] theorem newText_nil : newText ([] : List (Edit α)) = [] := rfl
@[simp] theorem changes_nil : changes ([] : List (Edit α)) = 0 := rfl

@[simp] theorem oldText_cons : oldText (edit :: first) = edit.old ++ oldText first := rfl
@[simp] theorem newText_cons : newText (edit :: first) = edit.new ++ newText first := rfl
@[simp] theorem changes_cons : changes (edit :: first) = edit.changes + changes first := rfl

@[simp] theorem oldText_append : oldText (first ++ second) = oldText first ++ oldText second :=
  List.flatMap_append

@[simp] theorem newText_append : newText (first ++ second) = newText first ++ newText second :=
  List.flatMap_append

@[simp] theorem changes_append : changes (first ++ second) = changes first + changes second := by
  induction first with
  | nil => rw [List.nil_append, changes_nil, Nat.zero_add]
  | cons edit first ih => rw [List.cons_append, changes_cons, changes_cons, ih, Nat.add_assoc]

@[simp] theorem changes_reverse : changes first.reverse = changes first := by
  induction first with
  | nil => rfl
  | cons edit first ih =>
      rw [List.reverse_cons, changes_append, ih, changes_cons, changes_cons, changes_nil]
      omega

end Texts

/-- Two scripts spell the same texts. -/
structure Same (left right : List (Edit α)) : Prop where
  old : oldText left = oldText right
  new : newText left = newText right

namespace Same

variable {left right middle front back : List (Edit α)}

@[refl] theorem refl (script : List (Edit α)) : Same script script := ⟨rfl, rfl⟩

theorem symm (h : Same left right) : Same right left := ⟨h.old.symm, h.new.symm⟩

theorem trans (h : Same left middle) (h' : Same middle right) : Same left right :=
  ⟨h.old.trans h'.old, h.new.trans h'.new⟩

/-- Scripts that spell the same texts stand for each other. -/
theorem append {left' right' : List (Edit α)} (h : Same left right) (h' : Same left' right') :
    Same (left ++ left') (right ++ right') :=
  ⟨by simp only [oldText_append, h.old, h'.old], by simp only [newText_append, h.new, h'.new]⟩

/-- So they do behind the same edit. -/
theorem cons (h : Same left right) (edit : Edit α) : Same (edit :: left) (edit :: right) :=
  append (refl [edit]) h

/-- A script spells the texts of two scripts, one after the other. -/
theorem eq_append {old new old' new' : List α} (h : oldText left = old ∧ newText left = new)
    (h' : oldText right = old' ∧ newText right = new') :
    oldText (left ++ right) = old ++ old' ∧ newText (left ++ right) = new ++ new' := by
  simp only [oldText_append, newText_append, h.1, h.2, h'.1, h'.2, and_self]

end Same

/-! ## Expanding characters -/

section Expand

variable {β : Type} (meaning : α → List β)

/-- The edit of what the characters of an edit stand for. -/
def Edit.expand (edit : Edit α) : Edit β :=
  { operation := edit.operation, text := edit.text.flatMap meaning }

theorem oldText_expand (script : List (Edit α)) :
    oldText (script.map (Edit.expand meaning)) = (oldText script).flatMap meaning := by
  induction script with
  | nil => rfl
  | cons edit script ih =>
      rw [List.map_cons, oldText_cons, oldText_cons, List.flatMap_append, ih]
      cases edit with
      | mk operation text => cases operation <;> rfl

theorem newText_expand (script : List (Edit α)) :
    newText (script.map (Edit.expand meaning)) = (newText script).flatMap meaning := by
  induction script with
  | nil => rfl
  | cons edit script ih =>
      rw [List.map_cons, newText_cons, newText_cons, List.flatMap_append, ih]
      cases edit with
      | mk operation text => cases operation <;> rfl

end Expand

/-- The characters of the texts are those of the edits. -/
theorem mem_texts {script : List (Edit α)} {char : α} :
    char ∈ oldText script ∨ char ∈ newText script ↔ ∃ edit ∈ script, char ∈ edit.text := by
  rw [oldText, newText, List.mem_flatMap, List.mem_flatMap]
  constructor
  · rintro (⟨edit, hedit, hchar⟩ | ⟨edit, hedit, hchar⟩)
    · refine ⟨edit, hedit, ?_⟩
      rw [Edit.old] at hchar
      split at hchar
      · cases hchar
      · exact hchar
    · refine ⟨edit, hedit, ?_⟩
      rw [Edit.new] at hchar
      split at hchar
      · cases hchar
      · exact hchar
  · rintro ⟨edit, hedit, hchar⟩
    by_cases hinsert : edit.operation = .insert
    · exact Or.inr ⟨edit, hedit, by rwa [Edit.new, if_neg (by rw [hinsert]; decide)]⟩
    · exact Or.inl ⟨edit, hedit, by rwa [Edit.old, if_neg hinsert]⟩

/-! ## Weight -/

/-- The length of the changes, and then the number of edits. -/
def weight (script : List (Edit α)) : Nat ×ₗ Nat := toLex (changes script, script.length)

section Weight

variable {left right : List (Edit α)}

theorem weight_lt_iff : weight left < weight right ↔
    changes left < changes right ∨ changes left = changes right ∧ left.length < right.length := by
  rw [weight, weight, Prod.Lex.toLex_lt_toLex]

theorem weight_le_iff : weight left ≤ weight right ↔
    changes left < changes right ∨ changes left = changes right ∧ left.length ≤ right.length := by
  rw [weight, weight, Prod.Lex.toLex_le_toLex]

end Weight

end EditScript
