import AnarchNet.Lib.FileRemoval

/-!
# What writing keeps

`Kept` relates a tree to one in which directories are still directories, files are still files, and
the links are the same. The calls that make directories and write files are of this kind, whether
they return or throw, so a node that is there once stays there.
-/

namespace FileSystem

open EStateM

namespace FileTree

/-- Directories and files stay what they are, and the links are the same. -/
structure Kept (before after : FileTree) : Prop where
  dirs : ∀ path, before.get path = some .dir → after.get path = some .dir
  files : ∀ path content, before.get path = some (.file content) →
    ∃ other, after.get path = some (.file other)
  links : ∀ path target,
    after.get path = some (.link target) ↔ before.get path = some (.link target)

section Kept

variable {before middle after : FileTree}

/-- Nothing changed. -/
theorem Kept.refl (tree : FileTree) : Kept tree tree :=
  ⟨fun _ h => h, fun _ content h => ⟨content, h⟩, fun _ _ => Iff.rfl⟩

/-- Keeping twice. -/
theorem Kept.trans (h : Kept before middle) (h' : Kept middle after) : Kept before after := by
  refine ⟨fun path hpath => h'.dirs path (h.dirs path hpath), fun path content hpath => ?_,
    fun path target => (h'.links path target).trans (h.links path target)⟩
  obtain ⟨other, hother⟩ := h.files path content hpath
  exact h'.files path other hother

/-- What is there stays there. -/
theorem Kept.get_ne_none (h : Kept before after) {path : FilePath} (hpath : before.get path ≠ none) :
    after.get path ≠ none := by
  obtain ⟨node, hnode⟩ := Option.ne_none_iff_exists'.1 hpath
  cases node with
  | dir => simp [h.dirs path hnode]
  | file content =>
      obtain ⟨other, hother⟩ := h.files path content hnode
      simp [hother]
  | link target => simp [(h.links path target).2 hnode]

/-- Links still lead to files. -/
theorem Kept.linksToFiles (h : Kept before after) (hlinks : before.LinksToFiles) :
    after.LinksToFiles :=
  hlinks.mono h.files fun path target hlink => Or.inl ((h.links path target).1 hlink)

/-- A new directory or file. -/
theorem kept_of_create {path : FilePath} {name : Name} {node : Node}
    (h : before.create path name node = some after) (hnode : ∀ target, node ≠ .link target) :
    Kept before after := by
  have hget := get_create h
  have hnone := (create_eq_some h).2.1
  have hold : ∀ other, before.get other ≠ none → after.get other = before.get other := by
    intro other hother
    rw [hget, if_neg]
    rintro rfl
    exact hother hnone
  refine ⟨fun other hother => ?_, fun other content hother => ⟨content, ?_⟩, fun other target => ?_⟩
  · rw [hold other (by simp [hother]), hother]
  · rw [hold other (by simp [hother]), hother]
  · rw [hget]
    split
    · next heq => simp [heq, hnone, hnode]
    · rfl

/-- Another content of a file. -/
theorem kept_write (tree : FileTree) (path : FilePath) (content : Bytes) :
    Kept tree (tree.write path content) := by
  refine ⟨fun other hother => ?_, fun other old hother => ?_, fun other target => ?_⟩
  · rw [get_write]
    split <;> simp [hother]
  · rw [get_write]
    split
    · exact ⟨content, by simp [hother, Node.rewrite]⟩
    · exact ⟨old, hother⟩
  · rw [get_write]
    split
    · cases hnode : tree.get other with
      | none => simp
      | some node => cases node <;> simp [Node.rewrite]
    · rfl

/-- A file opened for writing. -/
theorem kept_of_opened {path file : FilePath} (h : before.opened path = some (after, file)) :
    Kept before after := by
  rw [opened] at h
  split at h
  · split at h
    · simp only [Option.some.injEq, Prod.mk.injEq] at h
      obtain ⟨rfl, -⟩ := h
      exact kept_write before _ _
    · simp at h
  · split at h
    · simp at h
    · obtain ⟨created, hcreate, heq⟩ := Option.map_eq_some_iff.mp h
      obtain ⟨rfl, -⟩ := Prod.mk.inj heq
      exact kept_of_create hcreate (by simp)

/-- Opening a file and writing it makes no directory. -/
theorem dir_of_opened_write {path file other : FilePath} {content : Bytes}
    (h : before.opened path = some (after, file))
    (hdir : (after.write file content).get other = some .dir) : before.get other = some .dir := by
  rw [get_write, (opened_eq_some h).2] at hdir
  by_cases hother : other = file
  · simp [hother, Node.rewrite] at hdir
  · simpa [hother] using hdir

/-- What is not a directory stays so. -/
theorem Kept.not_dir (h : Kept before after) {path : FilePath} {node : Node}
    (hnode : before.get path = some node) (hdir : node ≠ .dir) :
    ∃ other, after.get path = some other ∧ other ≠ .dir := by
  cases node with
  | dir => exact absurd rfl hdir
  | file content =>
      obtain ⟨other, hother⟩ := h.files path content hnode
      exact ⟨_, hother, by simp⟩
  | link target => exact ⟨_, (h.links path target).2 hnode, by simp⟩

/-- A path that was opened for writing, in a tree whose links lead to files, does not lead to a
directory. -/
theorem not_dir_of_opened (hlinks : before.LinksToFiles) {path file : FilePath}
    (h : before.opened path = some (after, file)) :
    ∃ node, after.get (normal [] path) = some node ∧ node ≠ .dir := by
  obtain ⟨hresolve, hget⟩ := opened_eq_some h
  have hfile : after.get file = some (.file []) := by rw [hget, if_pos rfl]
  rcases resolve_cases ((kept_of_opened h).linksToFiles hlinks) hresolve with ⟨hpass, rfl⟩ |
    ⟨dir, name, content, -, -, -, -, rfl | hlink⟩
  · rw [hpass.get_normal] at hfile
    simp at hfile
  · exact ⟨_, hfile, by simp⟩
  · exact ⟨_, hlink, by simp⟩

end Kept

end FileTree

/-- The tree is kept. -/
def Keeps (before after : World) : Prop := FileTree.Kept before.tree after.tree

instance : Std.Refl Keeps := ⟨fun world => .refl world.tree⟩

instance : IsTrans World Keeps := ⟨fun _ _ _ h h' => h.trans h'⟩

section Calls

variable {ε : Type} {path : FilePath}

/-- A call that leaves the tree alone. -/
theorem keeps_of_tree_eq {before after : World} (h : after.tree = before.tree) :
    Keeps before after := by
  rw [Keeps, h]
  exact .refl before.tree

/-- Asking whether a path leads to something. -/
theorem keeps_present : Preserves Keeps (present path : EStateM ε World Bool) :=
  fun _ => keeps_of_tree_eq rfl

/-- Asking whether a path leads to a directory. -/
theorem keeps_isDirectory : Preserves Keeps (isDirectory path : EStateM ε World Bool) :=
  fun _ => keeps_of_tree_eq rfl

/-- Writing to an open file. -/
theorem keeps_writeAt (file : FilePath) (position : Nat) (bytes : Bytes) :
    Preserves Keeps (writeAt file position bytes : EStateM ε World Unit) :=
  fun world => FileTree.kept_write world.tree file _

/-- Opening a file for writing. -/
theorem keeps_openOut : Preserves Keeps (openOut path : EStateM ε World (Option FilePath)) := by
  intro world
  rw [run_openOut_eq]
  cases hopened : world.tree.opened path with
  | none => exact keeps_of_tree_eq rfl
  | some made =>
      obtain ⟨tree, file⟩ := made
      exact FileTree.kept_of_opened hopened

variable [FileFault ε]

/-- Creating a directory. -/
theorem keeps_createNode_dir : Preserves Keeps (createNode path .dir : EStateM ε World Unit) := by
  intro world
  simp only [createNode, run_bind, run_record, run_get]
  split
  · exact keeps_of_tree_eq rfl
  · split
    · exact keeps_of_tree_eq rfl
    · next hcreate => exact FileTree.kept_of_create hcreate (by simp)

/-- Creating the missing directories of a path. -/
theorem keeps_createMissing {done rest : FilePath} {made : Bool} :
    Preserves Keeps (createMissing done rest made : EStateM ε World Bool) := by
  induction rest generalizing done made with
  | nil => exact Preserves.pure made
  | cons name rest ih =>
      refine Preserves.bind keeps_isDirectory fun dir => Preserves.ite (fun _ => ih) fun _ => ?_
      refine Preserves.bind keeps_present fun there => Preserves.ite (fun _ => ?_) fun _ => ?_
      · exact Preserves.throw _
      · exact Preserves.bind keeps_createNode_dir fun _ => ih

/-- Making sure that a directory is there. -/
theorem keeps_ensureDirectory :
    Preserves Keeps (ensureDirectory path : EStateM ε World Bool) :=
  Preserves.bind keeps_present fun _ => Preserves.ite (fun _ => Preserves.pure true) fun _ =>
    keeps_createMissing

end Calls

/-! ## Links -/

/-- No link is new. -/
def OldLinks (before after : World) : Prop :=
  ∀ path target, after.tree.get path = some (.link target) →
    before.tree.get path = some (.link target)

instance : Std.Refl OldLinks := ⟨fun _ _ _ h => h⟩

instance : IsTrans World OldLinks :=
  ⟨fun _ _ _ h h' path target hlink => h path target (h' path target hlink)⟩

/-- Where the tree is kept no link is new. -/
theorem Keeps.oldLinks {before after : World} (h : Keeps before after) : OldLinks before after :=
  fun path target hlink => (h.links path target).1 hlink

/-- Where nodes are missing no link is new. -/
theorem oldLinks_of_shrinks {before after : World} {spot : FilePath}
    (h : FileTree.Shrinks spot before.tree after.tree) : OldLinks before after :=
  fun _ _ hlink => h.get_of_some hlink

/-- A call that leaves the tree alone. -/
theorem oldLinks_of_tree_eq {before after : World} (h : after.tree = before.tree) :
    OldLinks before after := (keeps_of_tree_eq h).oldLinks

section Calls

variable {ε : Type} [FileFault ε] {path : FilePath}

/-- Removing an entry. -/
theorem oldLinks_remove : Preserves OldLinks (remove path : EStateM ε World Bool) := by
  intro world
  simp only [remove, run_bind, run_record, run_get]
  split
  · exact oldLinks_of_tree_eq rfl
  · rw [run_ite]
    split
    · exact oldLinks_of_shrinks (FileTree.shrinks_prune List.nil_prefix world.tree)
    · exact oldLinks_of_tree_eq rfl

/-- Removing a subtree. -/
theorem oldLinks_removeAll : Preserves OldLinks (removeAll path : EStateM ε World Nat) := by
  intro world
  simp only [removeAll, run_bind, run_record, run_get]
  split
  · exact oldLinks_of_tree_eq rfl
  · rw [run_ite]
    split
    · exact oldLinks_of_shrinks (FileTree.shrinks_prune List.nil_prefix world.tree)
    · exact oldLinks_of_shrinks (FileTree.shrinks_clear List.nil_prefix world.tree)

/-- Listing a directory. -/
theorem oldLinks_listDirectory (listing : Listing) :
    Preserves OldLinks (listDirectory listing path : EStateM ε World (List Name)) := by
  intro world
  refine oldLinks_of_tree_eq ?_
  simp only [listDirectory, run_bind, run_record, run_get]
  split
  · rfl
  · split <;> rfl

end Calls

end FileSystem
