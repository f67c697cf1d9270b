import AnarchNet.Lib.FileStages

/-!
# What removing leaves

`Shrinks` relates a tree to one in which nodes are missing, all of them at or below one path. The
calls that remove what a path leads to, or entries of it, are of this kind, whether they return or
throw. No link is left dangling when only links and directories are below the path.
-/

namespace FileSystem

open EStateM

namespace FileTree

/-- Nodes are missing, all of them at or below the path. -/
def Shrinks (spot : FilePath) (before after : FileTree) : Prop :=
  ∀ path, after.get path = before.get path ∨ spot <+: path ∧ after.get path = none

section Shrinks

variable {spot : FilePath} {before middle after : FileTree}

/-- Nothing is missing. -/
theorem Shrinks.refl (spot : FilePath) (tree : FileTree) : Shrinks spot tree tree :=
  fun _ => Or.inl rfl

/-- Removing twice. -/
theorem Shrinks.trans (h : Shrinks spot before middle) (h' : Shrinks spot middle after) :
    Shrinks spot before after := by
  intro path
  rcases h' path with heq | hgone
  · rw [heq]
    exact h path
  · exact Or.inr hgone

/-- What is not below the path stays. -/
theorem Shrinks.get_other (h : Shrinks spot before after) {path : FilePath}
    (hpath : ¬ spot <+: path) : after.get path = before.get path :=
  (h path).resolve_right fun hgone => hpath hgone.1

/-- Nothing is new. -/
theorem Shrinks.get_of_some (h : Shrinks spot before after) {path : FilePath} {node : Node}
    (hnode : after.get path = some node) : before.get path = some node := by
  rcases h path with heq | ⟨-, hnone⟩
  · rw [← heq, hnode]
  · simp [hnone] at hnode

/-- Cutting off a subtree below the path. -/
theorem shrinks_prune {path : FilePath} (hpath : spot <+: path) (tree : FileTree) :
    Shrinks spot tree (tree.prune path) := by
  intro other
  by_cases hnil : path = []
  · rw [prune, dif_pos hnil]
    exact Or.inl rfl
  · rw [get_prune hnil]
    split
    · rename_i hother
      exact Or.inr ⟨hpath.trans hother, rfl⟩
    · exact Or.inl rfl

/-- Removing everything below a directory below the path. -/
theorem shrinks_clear {dir : FilePath} (hdir : spot <+: dir) (tree : FileTree) :
    Shrinks spot tree (tree.clear dir) := by
  rw [clear]
  refine List.foldlRecOn (motive := fun after => Shrinks spot tree after) _ _ (.refl spot tree) ?_
  intro after h name hname
  exact h.trans (shrinks_prune (hdir.trans (List.prefix_append _ _)) after)

/-- Links lead to files, and no file is at or below the path. -/
structure Removable (spot : FilePath) (tree : FileTree) : Prop where
  links : tree.LinksToFiles
  noFiles : ∀ path content, spot <+: path → tree.get path ≠ some (.file content)

/-- No link loses its file. -/
theorem Removable.of_shrinks (h : Removable spot before) (hshrinks : Shrinks spot before after) :
    Removable spot after := by
  refine ⟨fun path target hlink => ?_, fun path content hpath hfile =>
    h.noFiles path content hpath (hshrinks.get_of_some hfile)⟩
  obtain ⟨hplain, content, hfile⟩ := h.links path target (hshrinks.get_of_some hlink)
  refine ⟨hplain, content, ?_⟩
  rw [hshrinks.get_other fun hpre => h.noFiles target content hpre hfile, hfile]

end Shrinks

end FileTree

/-- Where nothing but links and directories is at or below the path, at most these are missing
afterwards. -/
def Removes (spot : FilePath) (before after : World) : Prop :=
  FileTree.Removable spot before.tree → FileTree.Shrinks spot before.tree after.tree

instance (spot : FilePath) : Std.Refl (Removes spot) := ⟨fun world _ => .refl spot world.tree⟩

instance (spot : FilePath) : IsTrans World (Removes spot) where
  trans := fun _ _ _ h h' hbefore => (h hbefore).trans (h' (hbefore.of_shrinks (h hbefore)))

section Calls

variable {ε : Type} {spot path : FilePath}

/-- A call that leaves the tree alone removes nothing. -/
theorem removes_of_tree_eq {before after : World} (h : after.tree = before.tree) :
    Removes spot before after := fun _ => h ▸ .refl spot after.tree

variable [FileFault ε]

/-- Listing a directory removes nothing. -/
theorem removes_listDirectory (listing : Listing) :
    Preserves (Removes spot) (listDirectory listing path : EStateM ε World (List Name)) := by
  intro world
  refine removes_of_tree_eq ?_
  simp only [listDirectory, run_bind, run_record, run_get]
  split
  · rfl
  · split <;> rfl

/-- Removing an entry. -/
theorem removes_remove (h : spot <+: normal [] path) :
    Preserves (Removes spot) (remove path : EStateM ε World Bool) := by
  intro world hworld
  simp only [remove, run_bind, run_record, run_get]
  cases hlocate : world.tree.locate path with
  | none => exact .refl spot world.tree
  | some found =>
      obtain ⟨rfl, -⟩ := FileTree.locate_eq_normal hworld.links.avoidDirs hlocate
      simp only [run_ite]
      split
      · exact FileTree.shrinks_prune h world.tree
      · exact .refl spot world.tree

/-- Removing a subtree. -/
theorem removes_removeAll (h : spot <+: normal [] path) :
    Preserves (Removes spot) (removeAll path : EStateM ε World Nat) := by
  intro world hworld
  simp only [removeAll, run_bind, run_record, run_get]
  cases hlocate : world.tree.locate path with
  | none => exact .refl spot world.tree
  | some found =>
      obtain ⟨rfl, -⟩ := FileTree.locate_eq_normal hworld.links.avoidDirs hlocate
      simp only [run_ite]
      split
      · exact FileTree.shrinks_prune h world.tree
      · exact FileTree.shrinks_clear h world.tree

end Calls

/-! ## What is removed -/

namespace FileTree

variable {tree : FileTree} {dir : FilePath}

/-- The path ends in the name of a node without entries, so `remove` removes it. -/
def Takes (tree : FileTree) (path : FilePath) : Prop :=
  ∃ found, tree.locate path = some found ∧ EndsInName path ∧ found ≠ [] ∧ tree.names found = []

/-- A listing is empty when nothing lies in the directory. -/
theorem names_eq_nil_iff : tree.names dir = [] ↔ ∀ name, tree.get (dir ++ [name]) = none := by
  rw [List.eq_nil_iff_forall_not_mem]
  refine forall_congr' fun name => ?_
  rw [mem_names, not_not]

/-- A name behind a path of directories names the node there. -/
theorem locate_of_passable {name : Name} (hdir : tree.Passable dir) (hname : Proper name)
    (hnode : tree.get (normal [] dir ++ [name]) ≠ none) :
    tree.locate (dir ++ [name]) = some (normal [] dir ++ [name]) := by
  have hslot : tree.slot (dir ++ [name]) = some (normal [] dir, name) := by
    rw [slot, List.getLast?_concat]
    simp [hname, resolve_of_passable hdir, hdir.get_normal]
  simp [locate, hslot, hnode]

/-- A path of directories names the last one. -/
theorem locate_of_passable_dir (hlinks : tree.LinksAvoidDirs) {path : FilePath}
    (h : tree.Passable path) : tree.locate path = some (normal [] path) := by
  rw [locate]
  cases hslot : tree.slot path with
  | none => exact resolve_of_passable h
  | some slot =>
      obtain ⟨dir, name⟩ := slot
      have hnormal := (slot_normal hlinks hslot).2.2
      simp [← hnormal, h.get_normal]

/-- A path leads nowhere if nothing is where it leads lexically. -/
theorem resolve_of_get_none (hlinks : tree.LinksAvoidDirs) {path : FilePath}
    (h : tree.get (normal [] path) = none) : tree.resolve path = none := by
  cases hlocate : tree.locate path with
  | none => exact resolve_of_locate_none hlinks hlocate
  | some found =>
      obtain ⟨rfl, hfound⟩ := locate_eq_normal hlinks hlocate
      exact absurd h hfound

/-- Cutting off a subtree leaves the paths alone that do not go through it, if no link leads into
it. -/
theorem resolve_prune {spot path reached : FilePath} (hlinks : tree.LinksToFiles)
    (hspot : spot ≠ []) (hapart : ∀ link target, tree.get link = some (.link target) →
      ¬ spot <+: target) (hstages : ∀ stage, stage <+: path → ¬ spot <+: normal [] stage)
    (h : tree.resolve path = some reached) : (tree.prune spot).resolve path = some reached := by
  have hkept : ∀ other, ¬ spot <+: other → (tree.prune spot).get other = tree.get other :=
    fun other hother => by rw [get_prune hspot, if_neg hother]
  have hpassable : ∀ front, front <+: path → tree.Passable front →
      (tree.prune spot).Passable front := by
    intro front hfront hpass stage hstage
    rw [hkept _ (hstages stage (hstage.trans hfront))]
    exact hpass stage hstage
  rcases resolve_cases hlinks h with ⟨hpass, rfl⟩ |
    ⟨dir, name, content, rfl, hdir, hname, hfile, rfl | hlink⟩
  · exact resolve_of_passable (hpassable path (List.prefix_refl path) hpass)
  · have hdir' := hpassable dir (List.prefix_append _ _) hdir
    have hnode := hkept _ (hstages _ (List.prefix_refl _))
    rw [normal_append, normal_cons, normal_nil, enter_of_proper hname] at hfile hnode ⊢
    rw [resolve, walk_append (resolve_of_passable hdir') hdir'.get_normal, walk, if_neg hname.1,
      if_neg hname.2, hnode, hfile]
    simp
  · have hnode := hkept _ (hstages _ (List.prefix_refl _))
    have htarget := hapart _ _ hlink
    rw [normal_append, normal_cons, normal_nil, enter_of_proper hname] at hlink hnode
    exact resolve_snoc_link (hpassable dir (List.prefix_append _ _) hdir) hname
      (hnode.trans hlink) (hlinks _ _ hlink).1 ((hkept _ htarget).trans hfile)

/-- Where nodes are missing, links lead to fewer places. -/
theorem LinksAvoidDirs.of_shrinks {spot : FilePath} {after : FileTree} (h : tree.LinksAvoidDirs)
    (hshrinks : Shrinks spot tree after) : after.LinksAvoidDirs := by
  intro path target limit reached hlink hfollow hdir
  have hmore : ∀ limit target reached, after.follow limit target = some reached →
      tree.follow limit target = some reached := by
    intro limit
    induction limit with
    | zero => simp [follow]
    | succ limit ih =>
        exact fun target reached => walk_of_more (fun _ _ => hshrinks.get_of_some) ih
  exact h path target limit reached (hshrinks.get_of_some hlink) (hmore _ _ _ hfollow)
    (hshrinks.get_of_some hdir)

/-- Where nodes are missing, a path that leads nowhere still does. -/
theorem resolve_none_of_shrinks {spot path : FilePath} {after : FileTree}
    (hshrinks : Shrinks spot tree after) (h : tree.resolve path = none) :
    after.resolve path = none := by
  cases hafter : after.resolve path with
  | none => rfl
  | some reached =>
      rw [resolve_of_more (fun _ _ => hshrinks.get_of_some) hafter] at h
      simp at h

end FileTree

section Calls

variable {ε : Type} [FileFault ε] {world after : World} {path : FilePath}

/-- `remove` returns true exactly if it removes the node that the path names. -/
theorem run_remove_true_iff (hlinks : world.tree.LinksAvoidDirs) :
    (remove path : EStateM ε World Bool).run world = .ok true after ↔
      world.tree.Takes path ∧
        after = { tree := world.tree.prune (normal [] path), log := world.log ++ [path] } := by
  simp only [remove, run_bind, run_record, run_get, FileTree.Takes]
  cases hlocate : world.tree.locate path with
  | none => simp
  | some found =>
      obtain ⟨rfl, -⟩ := FileTree.locate_eq_normal hlinks hlocate
      simp only [run_ite, Option.some.injEq, exists_eq_left']
      split
      · next htakes => simp [htakes, eq_comm]
      · next htakes => simp [htakes]

/-- `remove` returns false exactly if the path names nothing. -/
theorem run_remove_false_iff :
    (remove path : EStateM ε World Bool).run world = .ok false after ↔
      world.tree.locate path = none ∧ after = { world with log := world.log ++ [path] } := by
  simp only [remove, run_bind, run_record, run_get]
  cases hlocate : world.tree.locate path with
  | none => simp [eq_comm]
  | some found =>
      simp only [run_ite]
      split <;> simp

/-- When `remove` throws, nothing was removed. -/
theorem tree_of_remove_error {fault : ε}
    (hrun : (remove path : EStateM ε World Bool).run world = .error fault after) :
    after.tree = world.tree := by
  simp only [remove, run_bind, run_record, run_get] at hrun
  split at hrun
  · simp at hrun
  · rw [run_ite] at hrun
    split at hrun
    · simp at hrun
    · rw [run_throw_eq, Result.error.injEq] at hrun
      rw [← hrun.2]

/-- Remove entries of a directory by name, up to the first one that is not there. -/
def removeNamed (dir : FilePath) : List Name → EStateM ε World Bool
  | [] => return true
  | name :: rest => do
      if ← remove (dir ++ [name]) then removeNamed dir rest
      else return false

/-- The entries of a directory with these names, and what is below them, are missing. -/
def Unnamed (dir : FilePath) (names : List Name) (before after : FileTree) : Prop :=
  ∀ path, after.get path =
    if ∃ name ∈ names, dir ++ [name] <+: path then none else before.get path

/-- Removing one more entry. -/
theorem Unnamed.cons {dir : FilePath} {name : Name} {names : List Name} {before after : FileTree}
    (h : Unnamed dir names (before.prune (dir ++ [name])) after) :
    Unnamed dir (name :: names) before after := by
  intro path
  rw [h, FileTree.get_prune (by simp)]
  by_cases hname : dir ++ [name] <+: path
  · simp [hname]
  · simp [hname]

/-- A removed entry does not touch the other ones. -/
theorem names_prune_sibling {tree : FileTree} {dir : FilePath} {name other : Name}
    (hne : other ≠ name) :
    (tree.prune (dir ++ [name])).get (dir ++ [other]) = tree.get (dir ++ [other]) ∧
      ((tree.prune (dir ++ [name])).names (dir ++ [other]) = [] ↔
        tree.names (dir ++ [other]) = []) := by
  have hnot : ∀ rest, ¬ dir ++ [name] <+: dir ++ [other] ++ rest := by
    intro rest hpre
    rw [List.append_assoc, List.prefix_append_right_inj, List.singleton_append,
      List.cons_prefix_cons] at hpre
    exact hne hpre.1.symm
  refine ⟨?_, ?_⟩
  · rw [FileTree.get_prune (by simp), if_neg (by simpa using hnot [])]
  · rw [FileTree.names_eq_nil_iff, FileTree.names_eq_nil_iff]
    refine forall_congr' fun below => ?_
    rw [FileTree.get_prune (by simp), if_neg (hnot [below])]

/-- Entries that were all removed had no entries themselves. -/
theorem run_removeNamed_true {dir : FilePath} {names : List Name}
    (hlinks : world.tree.LinksAvoidDirs) (hnodup : names.Nodup)
    (hproper : ∀ name ∈ names, Proper name)
    (hrun : (removeNamed dir names : EStateM ε World Bool).run world = .ok true after) :
    (∀ name ∈ names, world.tree.names (normal [] dir ++ [name]) = []) ∧
      Unnamed (normal [] dir) names world.tree after.tree ∧ after.tree.LinksAvoidDirs := by
  induction names generalizing world with
  | nil =>
      rw [removeNamed, run_pure, Result.ok.injEq] at hrun
      rw [← hrun.2]
      exact ⟨by simp, fun path => by simp, hlinks⟩
  | cons name names ih =>
      rw [List.nodup_cons] at hnodup
      obtain ⟨removed, middle, hremove, hrest⟩ := run_bind_eq_ok hrun
      cases removed with
      | false => simp at hrest
      | true =>
          have hname := hproper name (by simp)
          have hnormal : normal [] (dir ++ [name]) = normal [] dir ++ [name] := by
            rw [normal_append, normal_cons, normal_nil, enter_of_proper hname]
          obtain ⟨⟨found, hlocate, -, -, hnil⟩, rfl⟩ := (run_remove_true_iff hlinks).1 hremove
          rw [(FileTree.locate_eq_normal hlinks hlocate).1, hnormal] at hnil
          simp only [if_true, hnormal] at hrest
          obtain ⟨hnames, hunnamed, hafter⟩ := ih (hlinks.of_shrinks
            (FileTree.shrinks_prune (List.prefix_refl _) world.tree)) hnodup.2
            (fun other hother => hproper other (by simp [hother])) hrest
          refine ⟨fun other hother => ?_, hunnamed.cons, hafter⟩
          rcases List.mem_cons.1 hother with rfl | hother
          · exact hnil
          · have hne : other ≠ name := fun heq => hnodup.1 (heq ▸ hother)
            exact (names_prune_sibling hne).2.1 (hnames other hother)

/-- Entries without entries are removed, if the path of the directory does not go through them. -/
theorem run_removeNamed_ok {dir : FilePath} {names : List Name}
    (hlinks : world.tree.LinksAvoidDirs) (hnodup : names.Nodup)
    (hpass : world.tree.Passable dir)
    (hthere : ∀ name ∈ names, world.tree.get (normal [] dir ++ [name]) ≠ none ∧
      world.tree.names (normal [] dir ++ [name]) = [])
    (hstages : ∀ stage name, stage <+: dir → ¬ normal [] dir ++ [name] <+: normal [] stage) :
    ∃ after, (removeNamed dir names : EStateM ε World Bool).run world = .ok true after ∧
      Unnamed (normal [] dir) names world.tree after.tree ∧ after.tree.LinksAvoidDirs ∧
      after.tree.Passable dir := by
  induction names generalizing world with
  | nil => exact ⟨world, rfl, fun path => by simp, hlinks, hpass⟩
  | cons name names ih =>
      rw [List.nodup_cons] at hnodup
      obtain ⟨hnode, hnil⟩ := hthere name (by simp)
      have hname : Proper name := (FileTree.get_valid hnode).1
      have hnormal : normal [] (dir ++ [name]) = normal [] dir ++ [name] := by
        rw [normal_append, normal_cons, normal_nil, enter_of_proper hname]
      have htakes : world.tree.Takes (dir ++ [name]) :=
        ⟨_, FileTree.locate_of_passable hpass hname hnode, endsInName_snoc dir hname, by simp, hnil⟩
      have hremove := (run_remove_true_iff (ε := ε) hlinks).2 ⟨htakes, rfl⟩
      rw [hnormal] at hremove
      have hpass' : (world.tree.prune (normal [] dir ++ [name])).Passable dir := by
        intro stage hstage
        rw [FileTree.get_prune (by simp), if_neg (hstages stage name hstage)]
        exact hpass stage hstage
      obtain ⟨after, hafter, hunnamed, hrest⟩ := @ih
        { tree := world.tree.prune (normal [] dir ++ [name]), log := world.log ++ [dir ++ [name]] }
        (hlinks.of_shrinks (FileTree.shrinks_prune (List.prefix_refl _) world.tree)) hnodup.2 hpass'
        fun other hother => by
          have hne : other ≠ name := fun heq => hnodup.1 (heq ▸ hother)
          obtain ⟨hget, hnames⟩ := @names_prune_sibling world.tree (normal [] dir) _ _ hne
          rw [hget, hnames]
          exact hthere other (by simp [hother])
      exact ⟨after, by rw [removeNamed, run_bind, hremove]; exact hafter, hunnamed.cons, hrest⟩

/-- Entries of a directory are all removed, or one of them has entries itself and stays. -/
theorem run_removeNamed_cases {dir : FilePath} {names : List Name}
    (hlinks : world.tree.LinksAvoidDirs) (hup : dotDot ∉ dir) (hpass : world.tree.Passable dir)
    (hnodup : names.Nodup) (hthere : ∀ name ∈ names, world.tree.get (normal [] dir ++ [name]) ≠ none) :
    (∃ after, (removeNamed dir names : EStateM ε World Bool).run world = .ok true after ∧
        Unnamed (normal [] dir) names world.tree after.tree ∧ after.tree.LinksAvoidDirs ∧
        ∀ name ∈ names, world.tree.names (normal [] dir ++ [name]) = []) ∨
      ∃ fault after gone, (removeNamed dir names : EStateM ε World Bool).run world =
          .error fault after ∧ Unnamed (normal [] dir) gone world.tree after.tree ∧
        ∃ name ∈ names, name ∉ gone := by
  induction names generalizing world with
  | nil => exact Or.inl ⟨world, rfl, fun path => by simp, hlinks, by simp⟩
  | cons name names ih =>
      rw [List.nodup_cons] at hnodup
      have hnode := hthere name (by simp)
      have hname : Proper name := (FileTree.get_valid hnode).1
      have hnormal : normal [] (dir ++ [name]) = normal [] dir ++ [name] := by
        rw [normal_append, normal_cons, normal_nil, enter_of_proper hname]
      have hlocate := FileTree.locate_of_passable hpass hname hnode
      by_cases hnil : world.tree.names (normal [] dir ++ [name]) = []
      · have htakes : world.tree.Takes (dir ++ [name]) :=
          ⟨_, hlocate, endsInName_snoc dir hname, by simp, hnil⟩
        have hremove := (run_remove_true_iff (ε := ε) hlinks).2 ⟨htakes, rfl⟩
        rw [hnormal] at hremove
        have hpass' : (world.tree.prune (normal [] dir ++ [name])).Passable dir := by
          rw [FileTree.passable_iff_get hup, FileTree.get_prune (by simp), if_neg fun hpre =>
            absurd (eq_nil_of_append_le hpre) (by simp)]
          exact hpass.get_normal
        have hsibling : ∀ other ∈ names, other ≠ name := fun other hother heq =>
          hnodup.1 (heq ▸ hother)
        rcases @ih
          { tree := world.tree.prune (normal [] dir ++ [name]), log := world.log ++ [dir ++ [name]] }
          (hlinks.of_shrinks (FileTree.shrinks_prune (List.prefix_refl _) world.tree)) hpass' hnodup.2
          (fun other hother => by
            rw [(names_prune_sibling (hsibling other hother)).1]
            exact hthere other (by simp [hother])) with
          ⟨after, hrun, hunnamed, hafter, hnames⟩ |
          ⟨fault, after, gone, hrun, hunnamed, other, hother, hleft⟩
        · refine Or.inl ⟨after, by rw [removeNamed, run_bind, hremove]; exact hrun, hunnamed.cons,
            hafter, fun other hother => ?_⟩
          rcases List.mem_cons.1 hother with rfl | hother
          · exact hnil
          · exact (names_prune_sibling (hsibling other hother)).2.1 (hnames other hother)
        · refine Or.inr ⟨fault, after, name :: gone, by rw [removeNamed, run_bind, hremove]; exact hrun,
            hunnamed.cons, other, by simp [hother], ?_⟩
          simp [hsibling other hother, hleft]
      · refine Or.inr ⟨FileFault.filesystemError,
          { world with log := world.log ++ [dir ++ [name]] }, [], ?_, fun path => by simp, name,
          by simp, by simp⟩
        simp [removeNamed, remove, hlocate, hnil]

end Calls

end FileSystem
