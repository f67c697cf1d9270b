import AnarchNet.Lib.FileKeeping
import AnarchNet.Lib.FileRemoval

/-!
# The longest path text

A system refuses the text of a path that is longer than `PATH_MAX`, whatever is there. `within` is
a call that throws then. `removeUntil` is what `remove_all` leaves when it comes to such a text
below the path that it was given, having removed the entries before it.
-/

namespace FileSystem

open EStateM

/-- `PATH_MAX`: the number of bytes that a path text may take, with the zero byte behind it. -/
def pathMax : Nat := 4096

/-- The length of the text of a path: a slash and a name for every component. -/
def textLength : FilePath → Nat
  | [] => 0
  | name :: rest => name.length + 1 + textLength rest

/-- The text of the path and a zero byte are longer than `PATH_MAX`. -/
def TooLong (path : FilePath) : Prop := pathMax ≤ textLength path

/-- `TooLong` compares two numbers. -/
instance (path : FilePath) : Decidable (TooLong path) := inferInstanceAs (Decidable (_ ≤ _))

@[simp] theorem textLength_append (left right : FilePath) :
    textLength (left ++ right) = textLength left + textLength right := by
  induction left with
  | nil => rw [List.nil_append, textLength, Nat.zero_add]
  | cons name left ih => rw [List.cons_append, textLength, textLength, ih, ← Nat.add_assoc]

@[simp] theorem textLength_singleton (name : Name) : textLength [name] = name.length + 1 := by
  simp [textLength]

/-- A path is at least as long as what it begins with. -/
theorem TooLong.of_prefix {path longer : FilePath} (h : TooLong path) (hpre : path <+: longer) :
    TooLong longer := by
  obtain ⟨rest, rfl⟩ := hpre
  rw [TooLong, textLength_append]
  exact Nat.le_add_right_of_le h

namespace FileTree

/-- Something at or below a node has a text that is too long, where the node has the text of the
path. -/
def LongBelow (tree : FileTree) (path node : FilePath) : Prop :=
  ∃ entry ∈ tree.nodes, node <+: entry.1 ∧ TooLong (path ++ entry.1.drop node.length)

/-- `LongBelow` looks at every node. -/
instance (tree : FileTree) (path node : FilePath) : Decidable (tree.LongBelow path node) :=
  inferInstanceAs (Decidable (∃ entry ∈ tree.nodes, _))

/-- What is left of a tree while the node is removed with all that is below it, entry after entry,
and whether no text was too long on the way. The depth bounds the number of components. -/
def removeUntil (listing : Listing) : Nat → FileTree → FilePath → FilePath → FileTree × Bool
  | 0, tree, _, _ => (tree, false)
  | depth + 1, tree, path, node =>
      if TooLong path then (tree, false)
      else
        let (rest, through) := (listing.order (tree.names node)).foldl
          (fun (state : FileTree × Bool) name =>
            if state.2 then removeUntil listing depth state.1 (path ++ [name]) (node ++ [name])
            else state) (tree, true)
        if through then (rest.prune node, true) else (rest, false)

/-- Only what is at or below the node is missing then. -/
theorem shrinks_removeUntil (listing : Listing) (depth : Nat) (tree : FileTree)
    (path node : FilePath) :
    Shrinks node tree (tree.removeUntil listing depth path node).1 := by
  induction depth generalizing tree path node with
  | zero => exact .refl node tree
  | succ depth ih =>
      rw [removeUntil]
      split
      · exact .refl node tree
      -- each entry only takes away what is below it
      have hentries : Shrinks node tree ((listing.order (tree.names node)).foldl
          (fun (state : FileTree × Bool) name =>
            if state.2 then removeUntil listing depth state.1 (path ++ [name]) (node ++ [name])
            else state) (tree, true)).1 := by
        refine List.foldlRecOn (motive := fun state : FileTree × Bool => Shrinks node tree state.1)
          _ _ (.refl node tree) fun state h name hname => ?_
        split
        · have hentry := ih state.1 (path ++ [name]) (node ++ [name])
          exact h.trans fun other => (hentry other).imp_right fun hgone =>
            ⟨(List.prefix_append node [name]).trans hgone.1, hgone.2⟩
        · exact h
      dsimp only
      split
      · exact hentries.trans (shrinks_prune List.prefix_rfl _)
      · exact hentries

end FileTree

section Calls

variable {ε α : Type} [FileFault ε] {path : FilePath} {call : EStateM ε World α}

/-- A call with a path. It throws where the text of the path is too long. -/
def within (path : FilePath) (call : EStateM ε World α) : EStateM ε World α :=
  if TooLong path then throw FileFault.filesystemError else call

/-- Where the text is not too long nothing differs. -/
theorem within_of_not (h : ¬ TooLong path) : within path call = call := if_neg h

/-- Where it is too long the call throws and changes nothing. -/
theorem run_within_of_tooLong (h : TooLong path) (world : World) :
    (within path call).run world = .error FileFault.filesystemError world := by
  rw [within, if_pos h]
  rfl

/-- What follows the call does not happen either. -/
theorem within_bind {β : Type} (next : α → EStateM ε World β) :
    within path call >>= next = within path (call >>= next) := by
  rw [within, within]
  split <;> rfl

/-- The call returns if the text is not too long and the call without the limit returns. -/
theorem ends_within_iff (world : World) :
    Ends (within path call) world ↔ ¬ TooLong path ∧ Ends call world := by
  by_cases h : TooLong path
  · exact iff_of_false (by simp [Ends, run_within_of_tooLong h]) fun hboth => hboth.1 h
  · rw [within_of_not h, and_iff_right h]

end Calls

end FileSystem
