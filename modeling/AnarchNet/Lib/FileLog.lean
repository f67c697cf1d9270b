import AnarchNet.Lib.FileStages

/-!
# The paths that calls open, create and remove

`Logged P` relates two worlds when the log only became longer, and every path noted in between has
the property `P`. Each call notes the path it was given, or nothing.
-/

namespace FileSystem

open EStateM

/-- The log after continues the log before with paths that have the property. -/
def Logged (P : FilePath → Prop) (before after : World) : Prop :=
  ∃ new, after.log = before.log ++ new ∧ ∀ path ∈ new, P path

instance (P : FilePath → Prop) : Std.Refl (Logged P) := ⟨fun _ => ⟨[], by simp, by simp⟩⟩

instance (P : FilePath → Prop) : IsTrans World (Logged P) where
  trans := by
    rintro before middle after ⟨new, hnew, hall⟩ ⟨new', hnew', hall'⟩
    refine ⟨new ++ new', by rw [hnew', hnew, List.append_assoc], fun path hpath => ?_⟩
    rcases List.mem_append.1 hpath with hpath | hpath
    · exact hall path hpath
    · exact hall' path hpath

namespace Logged

variable {P Q : FilePath → Prop} {before after : World}

/-- A weaker property. -/
theorem imp (h : Logged P before after) (himp : ∀ path, P path → Q path) : Logged Q before after := by
  obtain ⟨new, hnew, hall⟩ := h
  exact ⟨new, hnew, fun path hpath => himp path (hall path hpath)⟩

/-- The same log. -/
theorem of_log_eq (h : after.log = before.log) : Logged P before after := ⟨[], by simp [h], by simp⟩

/-- One more path. -/
theorem of_log_snoc {path : FilePath} (hpath : P path) (h : after.log = before.log ++ [path]) :
    Logged P before after := ⟨[path], h, by simpa using hpath⟩

/-- A path in the log is old or has the property. -/
theorem mem (h : Logged P before after) {path : FilePath} (hpath : path ∈ after.log) :
    path ∈ before.log ∨ P path := by
  obtain ⟨new, hnew, hall⟩ := h
  rw [hnew, List.mem_append] at hpath
  exact hpath.imp_right (hall path)

/-- A path stays in the log. -/
theorem mem_after (h : Logged P before after) {path : FilePath} (hpath : path ∈ before.log) :
    path ∈ after.log := by
  obtain ⟨new, hnew, -⟩ := h
  rw [hnew]
  exact List.mem_append_left _ hpath

end Logged

section Calls

variable {ε : Type} {P : FilePath → Prop} {path : FilePath}

/-- Looking a path up notes nothing. -/
theorem logged_present : Preserves (Logged P) (present path : EStateM ε World Bool) :=
  fun _ => .of_log_eq rfl

/-- Asking for a directory notes nothing. -/
theorem logged_isDirectory : Preserves (Logged P) (isDirectory path : EStateM ε World Bool) :=
  fun _ => .of_log_eq rfl

/-- Reading an open file notes nothing. -/
theorem logged_readAll : Preserves (Logged P) (readAll path : EStateM ε World (Option Bytes)) :=
  fun _ => .of_log_eq rfl

/-- Writing to an open file notes nothing. -/
theorem logged_writeAt (position : Nat) (bytes : Bytes) :
    Preserves (Logged P) (writeAt path position bytes : EStateM ε World Unit) :=
  fun _ => .of_log_eq rfl

/-- Opening a file for reading notes its path. -/
theorem logged_openIn (h : P path) :
    Preserves (Logged P) (openIn path : EStateM ε World (Option FilePath)) :=
  fun _ => .of_log_snoc h rfl

/-- Opening a file for writing notes its path. -/
theorem logged_openOut (h : P path) :
    Preserves (Logged P) (openOut path : EStateM ε World (Option FilePath)) := by
  intro world
  refine .of_log_snoc h ?_
  simp only [openOut, run_bind, run_record, run_get]
  split
  · split <;> rfl
  · split
    · rfl
    · split <;> rfl

/-- What the first part of a sequence notes stays noted. -/
theorem mem_log_bind {α β : Type} {first : EStateM ε World α} {next : α → EStateM ε World β}
    {world : World} (h : path ∈ (first.run world).state.log)
    (hnext : ∀ value, Preserves (Logged P) (next value)) :
    path ∈ ((first >>= next).run world).state.log := by
  rw [run_bind]
  cases hrun : first.run world with
  | ok value after =>
      rw [hrun] at h
      exact (hnext value after).mem_after h
  | error fault after =>
      rw [hrun] at h
      exact h

/-- A program that notes just one path. -/
theorem forall_mem_log_iff {α : Type} {program : EStateM ε World α} {world : World}
    (hlogged : Preserves (Logged (· = path)) program) (hmem : path ∈ (program.run world).state.log)
    (hlog : world.log = []) :
    (∀ other ∈ (program.run world).state.log, P other) ↔ P path := by
  refine ⟨fun h => h path hmem, fun h other hother => ?_⟩
  rcases (hlogged world).mem hother with hold | rfl
  · simp [hlog] at hold
  · exact h

/-- What a sequence notes is noted by its first part, or has the property of the second one. -/
theorem mem_log_of_bind {α β : Type} {first : EStateM ε World α} {next : α → EStateM ε World β}
    {world : World} (h : path ∈ ((first >>= next).run world).state.log)
    (hnext : ∀ value, Preserves (Logged P) (next value)) :
    path ∈ (first.run world).state.log ∨ P path := by
  rw [run_bind] at h
  cases hrun : first.run world with
  | ok value after =>
      rw [hrun] at h
      exact (hnext value after).mem h
  | error fault after =>
      rw [hrun] at h
      exact Or.inl h

variable [FileFault ε]

/-- Asking for the size of a file notes nothing. -/
theorem logged_fileSize : Preserves (Logged P) (fileSize path : EStateM ε World Nat) := by
  intro world
  refine .of_log_eq ?_
  simp only [fileSize, run_bind, run_get]
  split <;> rfl

/-- Creating a node notes its path. -/
theorem logged_createNode (node : Node) (h : P path) :
    Preserves (Logged P) (createNode path node : EStateM ε World Unit) := by
  intro world
  refine .of_log_snoc h ?_
  simp only [createNode, run_bind, run_record, run_get]
  split
  · rfl
  · split <;> rfl

/-- Going along a path notes at most the stages that are created. -/
theorem logged_createMissing {done rest : FilePath} {made : Bool}
    (h : ∀ stage, stage <+: rest → P (done ++ stage)) :
    Preserves (Logged P) (createMissing done rest made : EStateM ε World Bool) := by
  induction rest generalizing done made with
  | nil => exact Preserves.pure made
  | cons name rest ih =>
      have hrest : ∀ stage, stage <+: rest → P (done ++ [name] ++ stage) := fun stage hstage => by
        simpa using h (name :: stage) (by simpa using hstage)
      refine Preserves.bind logged_isDirectory fun dir => Preserves.ite (fun _ => ih hrest) fun _ => ?_
      refine Preserves.bind logged_present fun there =>
        Preserves.ite (fun _ => Preserves.throw _) fun _ => ?_
      exact Preserves.bind (logged_createNode .dir (h [name] (by simp))) fun _ => ih hrest

/-- Listing a directory notes its path. -/
theorem logged_listDirectory (listing : Listing) (h : P path) :
    Preserves (Logged P) (listDirectory listing path : EStateM ε World (List Name)) := by
  intro world
  refine .of_log_snoc h ?_
  simp only [listDirectory, run_bind, run_record, run_get]
  split
  · rfl
  · split <;> rfl

/-- A listing yields names that a file system stores. -/
theorem returns_listDirectory (listing : Listing) :
    Returns (fun names => ∀ name ∈ names, ValidName name)
      (listDirectory listing path : EStateM ε World (List Name)) := by
  intro world names last hrun
  simp only [listDirectory, run_bind, run_record, run_get] at hrun
  split at hrun
  · simp at hrun
  · rename_i dir hresolve
    split at hrun
    · simp only [run_pure, Result.ok.injEq] at hrun
      intro name hname
      rw [← hrun.1, (listing.perm _).mem_iff] at hname
      exact FileTree.get_valid (FileTree.mem_names.1 hname)
    · simp at hrun

/-- Removing an entry notes its path. -/
theorem logged_remove (h : P path) : Preserves (Logged P) (remove path : EStateM ε World Bool) := by
  intro world
  refine .of_log_snoc h ?_
  simp only [remove, run_bind, run_record, run_get]
  split
  · rfl
  · split <;> rfl

/-- Removing a subtree notes its path. -/
theorem logged_removeAll (h : P path) :
    Preserves (Logged P) (removeAll path : EStateM ε World Nat) := by
  intro world
  refine .of_log_snoc h ?_
  simp only [removeAll, run_bind, run_record, run_get]
  split
  · rfl
  · split <;> rfl

/-- The path of an entry to remove is noted in any case. -/
theorem mem_log_remove (world : World) :
    path ∈ ((remove path : EStateM ε World Bool).run world).state.log := by
  simp only [remove, run_bind, run_record, run_get]
  split
  · simp
  · split <;> simp

/-- The path of a subtree to remove is noted in any case. -/
theorem mem_log_removeAll (world : World) :
    path ∈ ((removeAll path : EStateM ε World Nat).run world).state.log := by
  simp only [removeAll, run_bind, run_record, run_get]
  split
  · simp
  · split <;> simp

/-- Going along an enterable path to a name that is missing notes where the name would be. -/
theorem exists_log_createMissing {done front : FilePath} {name : Name} (rest : FilePath) (made : Bool)
    {world : World} (hlinks : world.tree.LinksToFiles) (hdone : world.tree.Passable done)
    (hfree : world.tree.Enterable (done ++ front)) (hname : Proper name)
    (hnone : world.tree.get (normal [] (done ++ front ++ [name])) = none) :
    ∃ path ∈ ((createMissing done (front ++ name :: rest) made :
        EStateM ε World Bool).run world).state.log,
      normal [] path = normal [] (done ++ front ++ [name]) := by
  have hkept : ∀ made names flag, Preserves (Logged fun _ => True)
      (createMissing made names flag : EStateM ε World Bool) :=
    fun _ _ _ => logged_createMissing fun _ _ => trivial
  -- the stage that is missing is noted even if creating it fails
  have hnoted : ∀ {done rest : FilePath} {name : Name} (made : Bool) {world : World},
      world.tree.LinksToFiles → ¬ world.tree.Passable (done ++ [name]) → Proper name →
      world.tree.get (normal [] done ++ [name]) = none →
      done ++ [name] ∈ ((createMissing done (name :: rest) made :
        EStateM ε World Bool).run world).state.log := by
    intro done rest name made world hlinks hpass hname hnone
    rw [run_createMissing_cons,
      if_neg fun h => hpass ((FileTree.resolve_dir_iff hlinks.avoidDirs).1 h),
      FileTree.resolve_snoc_missing hlinks hname hnone]
    refine mem_log_bind (P := fun _ => True) ?_ fun _ => hkept _ _ _
    simp only [createNode, run_bind, run_record, run_get]
    split
    · simp
    · split <;> simp
  induction front generalizing done made world with
  | nil =>
      rw [List.append_nil] at hnone ⊢
      have hnormal : normal [] (done ++ [name]) = normal [] done ++ [name] := by
        rw [normal_append, normal_cons, normal_nil, enter_of_proper hname]
      have hpass : ¬ world.tree.Passable (done ++ [name]) := fun h => by
        rw [h.get_normal] at hnone
        simp at hnone
      exact ⟨_, hnoted made hlinks hpass hname (hnormal ▸ hnone), rfl⟩
  | cons first front ih =>
      rw [show done ++ first :: front = done ++ [first] ++ front by simp] at hfree hnone ⊢
      rw [List.cons_append]
      by_cases hdir : world.tree.Passable (done ++ [first])
      · rw [run_createMissing_cons, if_pos ((FileTree.resolve_dir_iff hlinks.avoidDirs).2 hdir)]
        exact ih false hlinks hdir hfree hnone
      have hproper := hdone.proper_of_not hdir
      have hnormal : normal [] (done ++ [first]) = normal [] done ++ [first] := by
        rw [normal_append, normal_cons, normal_nil, enter_of_proper hproper]
      have hmissing : world.tree.get (normal [] done ++ [first]) = none := by
        rcases hfree.stages _ (List.prefix_append _ _) with hmissing | hnode
        · rwa [hnormal] at hmissing
        · exact absurd (FileTree.passable_snoc.2 ⟨hdone, hnode⟩) hdir
      by_cases hsame : normal [] (done ++ [first]) = normal [] (done ++ [first] ++ front ++ [name])
      · exact ⟨_, hnoted made hlinks hdir hproper hmissing, hsame⟩
      obtain ⟨tree, htree, hrun⟩ := run_createNode_passable (ε := ε) .dir hdone
        (hfree.names first (by simp) hproper) hmissing
      rw [run_createMissing_cons,
        if_neg fun h => hdir ((FileTree.resolve_dir_iff hlinks.avoidDirs).1 h),
        FileTree.resolve_snoc_missing hlinks hproper hmissing]
      simp only [Option.isSome_none, Bool.false_eq_true, if_false, EStateM.run_bind, hrun]
      have hgrows : FileTree.Grows (fun path node => node = .dir ∧ path = normal [] done ++ [first])
          world.tree tree := FileTree.grows_of_create htree ⟨rfl, rfl⟩
      have hmade : tree.get (normal [] (done ++ [first])) = some .dir := by
        rw [FileTree.get_create htree, if_pos hnormal]
      refine ih true (hlinks.of_grows hgrows (by simp)) (FileTree.passable_snoc.2
        ⟨hdone.mono fun path hpath => hgrows.get_of_some hpath, hmade⟩)
        ⟨fun stage hstage => ?_, hfree.names⟩ ?_
      · rcases hgrows.get (normal [] stage) with heq | ⟨-, node, hnode, rfl, -⟩
        · rw [heq]
          exact hfree.stages stage hstage
        · exact Or.inr hnode
      · rw [FileTree.get_create htree, if_neg (by rw [← hnormal]; exact Ne.symm hsame), hnone]

end Calls

end FileSystem
