import AnarchNet.Crypto
import AnarchNet.Lib.FileSpecs
import Mathlib.Algebra.Group.Nat.Defs

/-!
# Directories of blocks

Both stores keep files under the hex form of a hash, cut into three components. This module has
the calls they share, `hash_to_path` and the opening of such a file with its directories, and the
invariant of a directory of blocks: two levels of directories and then files.
-/

namespace AnarchNet

open FileSystem

/-- `hash_to_path` where an exception ends the call. -/
def pathText (inp : Bytes) : Storage Bytes :=
  match hashToPath inp with
  | some text => return text
  | none => throw .outOfRange

/-- Make sure that the directory of a file is there and open the file for writing. Nothing is
opened when the directory could not be created. -/
def openBlock (dir : FilePath) (text : Bytes) : Storage (Option FilePath) := do
  if ← ensureDirectory (dir ++ components (removeFilename text)) then
    openOut (dir ++ components text)
  else return none

/-- The directory `/data` is one that a file system stores. -/
theorem validPath_data : ValidPath [[100, 97, 116, 97]] := by decide

/-- An id has a path text, so nothing is thrown. -/
theorem run_pathText {text : Bytes} (h : HexId text) (world : World) :
    (pathText text).run world = .ok (shardText text) world := by
  rw [pathText, h.hashToPath]
  rfl

/-- A text of at least four bytes has a path text. -/
theorem run_pathText_of_le {text : Bytes} (h : 4 ≤ text.length) (world : World) :
    (pathText text).run world = .ok (shardText text) world := by
  rw [pathText, hashToPath_of_le h]
  rfl

/-- A shorter text has none, and an exception is thrown. -/
theorem run_pathText_short {text : Bytes} (h : ¬ 4 ≤ text.length) (world : World) :
    (pathText text).run world = .error .outOfRange world := by
  rw [pathText, hashToPath_eq, if_neg h]
  rfl

/-- Under an id there is a file or nothing, and above it there are directories or nothing. -/
structure BlockDir (dir : FilePath) (tree : FileTree) : Prop where
  base : tree.get dir = some .dir
  above : ∀ id above, HexId id → above <+: shard id → above ≠ shard id →
    tree.get (dir ++ above) = none ∨ tree.get (dir ++ above) = some .dir
  files : ∀ id, HexId id → tree.get (dir ++ shard id) = none ∨
    ∃ content, tree.get (dir ++ shard id) = some (.file content)

/-- The last component of an id's path. -/
theorem shard_eq_snoc (id : Bytes) : shard id = (shard id).dropLast ++ [id.drop 4] := rfl

/-- A path in a directory of blocks has valid names. -/
theorem HexId.validPath {id : Bytes} (h : HexId id) {dir : FilePath} (hdir : ValidPath dir) :
    ValidPath (dir ++ shard id) :=
  validPath_append.2 ⟨hdir, h.validPath_shard⟩

/-- The paths of different ids do not contain each other. -/
theorem id_eq_of_shard_le {id other : Bytes} (h : shard id <+: shard other) : id = other := by
  exact shard_injective (h.eq_of_length (by simp [shard]))

/-- The tree after one file was written and the directories above it were made. -/
def Stored (file : FilePath) (content : Bytes) (before after : FileTree) : Prop :=
  ∀ path, after.get path =
    if path = file then some (.file content)
    else if path <+: file then some .dir
    else before.get path

/-- The file holds what was written. -/
theorem Stored.get_file {file : FilePath} {content : Bytes} {before after : FileTree}
    (h : Stored file content before after) : after.get file = some (.file content) := by
  rw [h, if_pos rfl]

/-- Away from the file nothing changes. -/
theorem Stored.get_other {file path : FilePath} {content : Bytes} {before after : FileTree}
    (h : Stored file content before after) (hpath : ¬ path <+: file) :
    after.get path = before.get path := by
  have hne : path ≠ file := by
    rintro rfl
    exact hpath (List.prefix_refl path)
  rw [h, if_neg hne, if_neg hpath]

/-- No link appears. -/
theorem Stored.get_link {file path target : FilePath} {content : Bytes} {before after : FileTree}
    (h : Stored file content before after) (hlink : after.get path = some (.link target)) :
    before.get path = some (.link target) := by
  rw [h] at hlink
  split at hlink
  · simp at hlink
  · split at hlink
    · simp at hlink
    · exact hlink

/-- Rewriting the file again replaces its content. -/
theorem Stored.rewrite {file : FilePath} {old content : Bytes} {before middle after : FileTree}
    (h : Stored file old before middle)
    (hget : ∀ path, after.get path =
      if path = file then some (.file content) else middle.get path) :
    Stored file content before after := by
  intro path
  rw [hget, h]
  by_cases hpath : path = file
  · rw [if_pos hpath, if_pos hpath]
  · rw [if_neg hpath, if_neg hpath, if_neg hpath]

namespace BlockDir

variable {dir : FilePath} {tree : FileTree}

/-- Above a block there are only directories. -/
theorem above_block (h : BlockDir dir tree) {id : Bytes} (hid : HexId id) {path : FilePath}
    (hpath : path <+: dir ++ shard id) (hne : path ≠ dir ++ shard id) :
    tree.get path = none ∨ tree.get path = some .dir := by
  rcases prefix_append_cases hpath with ⟨tail, htail⟩ | ⟨rest, rfl, hrest⟩
  · exact Or.inr (FileTree.get_dir_of_append (htail ▸ h.base))
  · exact h.above id rest hid hrest fun heq => hne (by rw [heq])

/-- Only what lies in the directory matters. -/
theorem congr (h : BlockDir dir tree) {after : FileTree}
    (hget : ∀ rest, after.get (dir ++ rest) = tree.get (dir ++ rest)) : BlockDir dir after := by
  refine ⟨?_, fun id above hid habove hne => ?_, fun id hid => ?_⟩
  · have hbase := hget []
    rw [List.append_nil] at hbase
    rw [hbase, h.base]
  · rw [hget]
    exact h.above id above hid habove hne
  · rw [hget]
    exact h.files id hid

/-- A block written to a directory of blocks leaves it one. -/
theorem of_stored (h : BlockDir dir tree) {after : FileTree} {id content : Bytes}
    (hstored : Stored (dir ++ shard id) content tree after) : BlockDir dir after := by
  have hget : ∀ rest, after.get (dir ++ rest) =
      if rest = shard id then some (.file content)
      else if rest <+: shard id then some .dir
      else tree.get (dir ++ rest) := fun rest => by
    rw [hstored]
    simp only [List.append_cancel_left_eq, List.prefix_append_right_inj]
  constructor
  · have := hget []
    rw [List.append_nil] at this
    rw [this, if_neg (by simp [shard]), if_pos List.nil_prefix]
  · intro other above hother habove hne
    rw [hget]
    split
    · rename_i heq
      exact absurd (habove.eq_of_length (by simp [heq, shard])) hne
    · split
      · exact Or.inr rfl
      · exact h.above other above hother habove hne
  · intro other hother
    rw [hget]
    split
    · exact Or.inr ⟨content, rfl⟩
    · rename_i hne
      rw [if_neg fun hpre => hne (by rw [id_eq_of_shard_le hpre])]
      exact h.files other hother

end BlockDir

/-- Opening a block for writing makes its directories and leaves an empty file. -/
theorem run_openBlock {dir : FilePath} {id : Bytes} {world : World} (hid : HexId id)
    (hdir : ValidPath dir) (hblocks : BlockDir dir world.tree)
    (hlinks : world.tree.LinksToFiles) :
    ∃ after, (openBlock dir (shardText id)).run world = .ok (some (dir ++ shard id)) after ∧
      Stored (dir ++ shard id) [] world.tree after.tree := by
  have hsplit : dir ++ shard id = dir ++ (shard id).dropLast ++ [id.drop 4] := by
    rw [List.append_assoc]
    rfl
  have hvalid : ValidPath (dir ++ (shard id).dropLast ++ [id.drop 4]) := hsplit ▸ hid.validPath hdir
  have hparent := (validPath_append.1 hvalid).1
  have hpre : ∀ path, path <+: dir ++ (shard id).dropLast →
      path <+: dir ++ shard id ∧ path ≠ dir ++ shard id := by
    intro path hpath
    rw [hsplit]
    refine ⟨hpath.trans (List.prefix_append _ _), fun heq => ?_⟩
    have hlen := hpath.length_le
    rw [heq, List.length_append, List.length_singleton] at hlen
    omega
  obtain ⟨made, hmade, hlinks', hgetMade⟩ :=
    run_ensureDirectory (ε := Exception) hlinks hparent.plain
    (fun above habove => hblocks.above_block hid (hpre above habove).1 (hpre above habove).2) hparent
  have hnode : made.tree.get (dir ++ (shard id).dropLast ++ [id.drop 4]) =
      world.tree.get (dir ++ shard id) := by
    rw [hgetMade, ← hsplit, if_neg fun habove => (hpre _ habove).2 rfl]
  obtain ⟨after, hafter, hget⟩ := run_openOut (ε := Exception) hlinks' hvalid.plain
    (by rw [hgetMade, if_pos (List.prefix_refl _)]) (by rw [hnode]; exact hblocks.files id hid)
    (hvalid _ (by simp))
  refine ⟨after, ?_, fun path => ?_⟩
  · rw [openBlock, hid.components_removeFilename, hid.components_shardText, EStateM.run_bind, hmade]
    simp only [if_true]
    rw [hsplit, hafter]
  · rw [hget, hgetMade, ← hsplit]
    by_cases hpath : path = dir ++ shard id
    · rw [if_pos hpath, if_pos hpath]
    · rw [if_neg hpath, if_neg hpath]
      by_cases habove : path <+: dir ++ shard id
      · rw [if_pos habove, if_pos]
        rw [hsplit] at habove
        rcases List.prefix_concat_iff.1 habove with heq | hbelow
        · exact absurd (hsplit ▸ heq) hpath
        · exact hbelow
      · rw [if_neg habove, if_neg fun hbelow => habove (hpre path hbelow).1]

/-! ## A fresh file system -/

/-- The file system on which nothing but two directories was made. -/
def freshDirs (first second : FilePath) : World :=
  { tree := ((do
      let _ ← ensureDirectory first
      ensureDirectory second : Storage Bool).run { tree := .empty, log := [] }).state.tree,
    log := [] }

/-- In the empty tree there is only the root. -/
theorem get_empty (path : FilePath) :
    FileTree.empty.get path = if path = [] then some .dir else none := by
  rw [FileTree.get, FileTree.empty, lookup_cons_eq_ite]
  rfl

/-- The nodes of a fresh file system. -/
theorem get_freshDirs {one two : FilePath} (hone : ValidPath one) (htwo : ValidPath two)
    (path : FilePath) :
    (freshDirs one two).tree.get path =
      if path <+: one ∨ path <+: two then some .dir else none := by
  have hlinks : FileTree.empty.LinksToFiles := by
    intro path target hlink
    rw [get_empty] at hlink
    split at hlink <;> simp at hlink
  have hfree : ∀ above, FileTree.empty.get above = none ∨ FileTree.empty.get above = some .dir := by
    intro above
    rw [get_empty]
    split <;> simp
  obtain ⟨first, hfirst, hlinks', hget⟩ :=
    run_ensureDirectory (ε := Exception) (show World.tree ⟨.empty, []⟩ |>.LinksToFiles from hlinks)
      hone.plain (fun above _ => hfree above) hone
  obtain ⟨second, hsecond, -, hget'⟩ := run_ensureDirectory (ε := Exception) hlinks'
    htwo.plain (fun above _ => by
      rw [hget]
      split
      · exact Or.inr rfl
      · exact hfree above) htwo
  have hfresh : (freshDirs one two).tree = second.tree := by
    simp only [freshDirs, EStateM.run_bind, hfirst, hsecond, EStateM.Result.state_ok]
  rw [hfresh, hget', hget, get_empty]
  by_cases hsecondDir : path <+: two
  · simp [hsecondDir]
  · by_cases hfirstDir : path <+: one
    · simp [hfirstDir]
    · have hne : path ≠ [] := by
        rintro rfl
        exact hsecondDir List.nil_prefix
      simp [hsecondDir, hfirstDir, hne]

end AnarchNet
