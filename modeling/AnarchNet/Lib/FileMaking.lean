import AnarchNet.Lib.FileStages

/-!
# Making the directories of a path

`made` and `ensured` are `create_directories` over trees: what is left when the missing directories
of a path are created, if they can be. Nothing is assumed of the links of a tree here, so that the
calls are known to throw in just those trees in which the functions have no value.
-/

namespace FileSystem

open EStateM

namespace FileTree

/-- The tree after a node was created. -/
def added (tree : FileTree) (path : FilePath) (node : Node) : Option FileTree :=
  (tree.slot path).bind fun slot => tree.create slot.1 slot.2 node

/-- The tree after the missing directories along `rest` were created behind `done`, and whether the
last one is new. -/
def made : FileTree → FilePath → FilePath → Bool → Option (FileTree × Bool)
  | tree, _, [], new => some (tree, new)
  | tree, done, name :: rest, _ =>
      if (tree.resolve (done ++ [name])).bind tree.get = some .dir then
        made tree (done ++ [name]) rest false
      else if (tree.resolve (done ++ [name])).isSome then none
      else (tree.added (done ++ [name]) .dir).bind fun more => made more (done ++ [name]) rest true

/-- The tree after making sure that a directory is there. -/
def ensured (tree : FileTree) (path : FilePath) : Option (FileTree × Bool) :=
  if (tree.resolve path).isSome then some (tree, true)
  else tree.made [] (path.filter (· ≠ [])) false

variable {tree more : FileTree} {path done rest : FilePath} {flag new : Bool}

/-- Where a walk ends there is something. -/
theorem get_ne_none_of_walk {follow : FilePath → Option FilePath}
    (hfollow : ∀ target reached, follow target = some reached → tree.get reached ≠ none)
    {current reached : FilePath} (hcurrent : tree.get current ≠ none)
    (h : tree.walk follow current path = some reached) : tree.get reached ≠ none := by
  induction path generalizing current with
  | nil =>
      rw [walk, Option.some.injEq] at h
      exact h ▸ hcurrent
  | cons name path ih =>
      rcases walk_cons_cases h with ⟨-, h⟩ | ⟨-, -, h⟩ | ⟨-, hcases⟩
      · exact ih hcurrent h
      · refine ih ?_ h
        rcases List.eq_nil_or_concat current with rfl | ⟨above, last, rfl⟩
        · exact hcurrent
        · rw [List.concat_eq_append] at hcurrent ⊢
          rw [List.dropLast_concat, get_parent hcurrent]
          simp
      · rcases hcases with ⟨hnode, h⟩ | ⟨content, hnode, -, rfl⟩ | ⟨target, middle, -, htarget, hcases⟩
        · exact ih (by simp [hnode]) h
        · simp [hnode]
        · rcases hcases with ⟨-, rfl⟩ | ⟨-, -, h⟩
          · exact hfollow _ _ htarget
          · exact ih (hfollow _ _ htarget) h

/-- Where a path leads there is something. -/
theorem get_ne_none_of_resolve {reached : FilePath} (h : tree.resolve path = some reached) :
    tree.get reached ≠ none := by
  have hfollow : ∀ limit target reached, tree.follow limit target = some reached →
      tree.get reached ≠ none := by
    intro limit
    induction limit with
    | zero => simp [follow]
    | succ limit ih => exact fun target reached htarget => get_ne_none_of_walk ih (by simp) htarget
  exact get_ne_none_of_walk (hfollow 40) (by simp) h

/-- What a path locates is there. -/
theorem get_ne_none_of_locate {found : FilePath} (h : tree.locate path = some found) :
    tree.get found ≠ none := by
  rw [locate] at h
  split at h
  · exact get_ne_none_of_resolve h
  · split at h
    · cases h
    · next hnode => exact Option.some.inj h ▸ hnode

/-- A path that locates nothing leads nowhere. -/
theorem resolve_eq_none_of_locate (h : tree.locate path = none) : tree.resolve path = none := by
  rw [locate] at h
  split at h
  · exact h
  · next dir name hslot =>
      obtain ⟨hpath, hname, hdir, hnode⟩ := slot_eq_some hslot
      have hnone : tree.get (dir ++ [name]) = none := by
        by_contra hsome
        rw [if_neg hsome] at h
        cases h
      rw [hpath, resolve, walk_append hdir hnode, walk, if_neg hname.1, if_neg hname.2, hnone]

/-- Repeated slashes do not matter for a path to a directory. -/
theorem walk_of_filter {follow : FilePath → Option FilePath} {current reached : FilePath}
    (h : tree.walk follow current (path.filter (· ≠ [])) = some reached)
    (hdir : tree.get reached = some .dir) : tree.walk follow current path = some reached := by
  induction path generalizing current with
  | nil => exact h
  | cons name path ih =>
      by_cases hempty : name = []
      · rw [hempty, List.filter_cons_of_neg (by simp)] at h
        have hstays : Stays [] := Or.inl rfl
        rw [hempty, walk, if_pos hstays]
        exact ih h
      · rw [List.filter_cons_of_pos (by simpa using hempty)] at h
        rw [walk]
        rcases walk_cons_cases h with ⟨hstays, h⟩ | ⟨hstays, hup, h⟩ | ⟨hname, hcases⟩
        · rw [if_pos hstays, ih h]
        · rw [if_neg hstays, if_pos hup, ih h]
        · rw [if_neg hname.1, if_neg hname.2]
          rcases hcases with ⟨hnode, h⟩ | ⟨content, hnode, -, rfl⟩ |
            ⟨target, middle, hnode, htarget, hcases⟩
          · rw [hnode]
            exact ih h
          · rw [hnode] at hdir
            cases hdir
          · rw [hnode]
            simp only [htarget]
            -- behind a link to the directory there may still be slashes
            have hrest : tree.get middle = some .dir ∧
                tree.walk follow middle (path.filter (· ≠ [])) = some reached := by
              rcases hcases with ⟨hnil, rfl⟩ | ⟨-, hmiddle, h⟩
              · exact ⟨hdir, by rw [hnil, walk]⟩
              · exact ⟨hmiddle, h⟩
            by_cases hpath : path = []
            · rw [if_pos hpath]
              simpa [hpath, walk] using hrest.2
            · rw [if_neg hpath, if_pos hrest.1, ih hrest.2]

/-- Behind a file a walk leads nowhere. -/
theorem walk_behind_file {follow : FilePath → Option FilePath} {current right reached : FilePath}
    (hcurrent : tree.get current = some .dir) (h : tree.walk follow current path = some reached)
    (hfile : tree.get reached ≠ some .dir) (hright : right ≠ []) :
    tree.walk follow current (path ++ right) = none := by
  induction path generalizing current with
  | nil =>
      rw [walk, Option.some.injEq] at h
      exact absurd (h ▸ hcurrent) hfile
  | cons name path ih =>
      rw [List.cons_append, walk]
      rcases walk_cons_cases h with ⟨hstays, h⟩ | ⟨hstays, hup, h⟩ | ⟨hname, hcases⟩
      · rw [if_pos hstays, ih hcurrent h]
      · rw [if_neg hstays, if_pos hup]
        refine ih ?_ h
        rcases List.eq_nil_or_concat current with rfl | ⟨above, last, rfl⟩
        · exact hcurrent
        · rw [List.concat_eq_append] at hcurrent ⊢
          rw [List.dropLast_concat]
          exact get_parent (by rw [hcurrent]; simp)
      · rw [if_neg hname.1, if_neg hname.2]
        rcases hcases with ⟨hnode, h⟩ | ⟨content, hnode, rfl, rfl⟩ |
          ⟨target, middle, hnode, htarget, hcases⟩
        · rw [hnode]
          exact ih hnode h
        · simp [hnode, hright]
        · rw [hnode]
          simp only [htarget, if_neg (show path ++ right ≠ [] by simp [hright])]
          rcases hcases with ⟨rfl, rfl⟩ | ⟨-, hmiddle, h⟩
          · rw [if_neg hfile]
          · rw [if_pos hmiddle, ih hmiddle h]

/-- Behind a file a path leads nowhere. -/
theorem resolve_behind_file {right reached : FilePath} (h : tree.resolve path = some reached)
    (hfile : tree.get reached ≠ some .dir) (hright : right ≠ []) :
    tree.resolve (path ++ right) = none :=
  walk_behind_file tree.get_root h hfile hright

/-- Slashes behind the path of a directory do not matter. -/
theorem resolve_append_slashes {reached : FilePath} (h : tree.resolve path = some reached)
    (hdir : tree.get reached = some .dir) (count : Nat) :
    tree.resolve (path ++ List.replicate count []) = some reached := by
  rw [resolve, walk_append h hdir]
  induction count with
  | zero => rfl
  | succ count ih =>
      have hstays : Stays [] := Or.inl rfl
      rw [List.replicate_succ, walk, if_pos hstays, ih]

/-- A path behind what is no directory has no slot. -/
theorem slot_eq_none (name : Name) (h : (tree.resolve path).bind tree.get ≠ some .dir) :
    tree.slot (path ++ [name]) = none := by
  cases hslot : tree.slot (path ++ [name]) with
  | none => rfl
  | some slot =>
      obtain ⟨-, -, hresolve, hdir⟩ := slot_eq_some hslot
      rw [List.dropLast_concat] at hresolve
      exact absurd (by rw [hresolve, Option.bind_some, hdir]) h

/-- A name that is free in a directory can be added. -/
theorem added_of_resolve {dir : FilePath} {name : Name} (node : Node)
    (h : tree.resolve path = some dir) (hdir : tree.get dir = some .dir)
    (hnone : tree.get (dir ++ [name]) = none) (hname : ValidName name) :
    ∃ more, tree.added (path ++ [name]) node = some more := by
  obtain ⟨more, hcreate⟩ := create_isSome node hdir hnone hname
  refine ⟨more, ?_⟩
  rw [added, slot, List.getLast?_concat]
  simpa [hname.1, h, hdir] using hcreate

/-- A node that was added is new. -/
theorem get_of_added {node : Node} (h : tree.added path node = some more) :
    ∃ dir name, tree.slot path = some (dir, name) ∧ tree.get (dir ++ [name]) = none ∧
      ∀ other, more.get other = if other = dir ++ [name] then some node else tree.get other := by
  obtain ⟨⟨dir, name⟩, hslot, hcreate⟩ := Option.bind_eq_some_iff.1 h
  exact ⟨dir, name, hslot, (create_eq_some hcreate).2.1, get_create hcreate⟩

/-- Adding a node adds just that. -/
theorem grows_added {node : Node} (h : tree.added path node = some more) :
    Grows (fun _ other => other = node) tree more := by
  obtain ⟨⟨dir, name⟩, -, hcreate⟩ := Option.bind_eq_some_iff.1 h
  exact grows_of_create hcreate rfl

/-- The path of a directory that was added leads to it. -/
theorem resolve_added (h : tree.added path .dir = some more) :
    (more.resolve path).bind more.get = some .dir := by
  obtain ⟨dir, name, hslot, hnone, hget⟩ := get_of_added h
  have hmore : ∀ path node, tree.get path = some node → more.get path = some node :=
    fun _ _ => (grows_added h).get_of_some
  obtain ⟨hpath, hname, hdir, hnode⟩ := slot_eq_some hslot
  rw [hpath, resolve, walk_append (resolve_of_more hmore hdir) (hmore _ _ hnode), walk,
    if_neg hname.1, if_neg hname.2, hget, if_pos rfl]
  simp [walk, hget]

/-- Making directories adds nothing else. -/
theorem grows_made (h : tree.made done rest flag = some (more, new)) :
    Grows (fun _ node => node = .dir) tree more := by
  induction rest generalizing tree done flag with
  | nil =>
      obtain ⟨rfl, -⟩ := Prod.mk.inj (Option.some.inj h)
      exact .refl tree
  | cons name rest ih =>
      rw [made] at h
      split at h
      · exact ih h
      · split at h
        · cases h
        · obtain ⟨between, hadded, hmade⟩ := Option.bind_eq_some_iff.1 h
          exact (grows_added hadded).trans (ih hmade)

/-- A path along which directories were made leads to the last of them. -/
theorem resolve_made (h : tree.made done rest flag = some (more, new))
    (hdone : (tree.resolve done).bind tree.get = some .dir) :
    (more.resolve (done ++ rest)).bind more.get = some .dir := by
  induction rest generalizing tree done flag with
  | nil =>
      obtain ⟨rfl, -⟩ := Prod.mk.inj (Option.some.inj h)
      rwa [List.append_nil]
  | cons name rest ih =>
      rw [List.append_cons]
      rw [made] at h
      split at h
      · next hdir => exact ih h hdir
      · split at h
        · cases h
        · obtain ⟨between, hadded, hmade⟩ := Option.bind_eq_some_iff.1 h
          exact ih hmade (resolve_added hadded)

/-- Making sure that a directory is there adds nothing but directories. -/
theorem grows_ensured (h : tree.ensured path = some (more, new)) :
    Grows (fun _ node => node = .dir) tree more := by
  rw [ensured] at h
  split at h
  · obtain ⟨rfl, -⟩ := Prod.mk.inj (Option.some.inj h)
    exact .refl tree
  · exact grows_made h

/-- A path that leads somewhere is there already. -/
theorem ensured_of_resolve (h : (tree.resolve path).isSome) :
    tree.ensured path = some (tree, true) := by
  rw [ensured, if_pos h]

/-- Unless the path led somewhere else before, it leads to a directory. -/
theorem resolve_ensured_of_none (h : tree.ensured path = some (more, new))
    (hnone : tree.resolve path = none) : (more.resolve path).bind more.get = some .dir := by
  rw [ensured, hnone, if_neg (by simp)] at h
  have hfilter := resolve_made h (by simp [resolve, walk])
  rw [List.nil_append] at hfilter
  obtain ⟨reached, hreached, hdir⟩ := Option.bind_eq_some_iff.1 hfilter
  rw [resolve, walk_of_filter hreached hdir, Option.bind_some, hdir]

/-- When a directory was made sure of, its path leads somewhere. -/
theorem resolve_ensured (h : tree.ensured path = some (more, new)) :
    (more.resolve path).isSome := by
  cases hresolve : tree.resolve path with
  | none =>
      obtain ⟨reached, hreached, -⟩ := Option.bind_eq_some_iff.1 (resolve_ensured_of_none h hresolve)
      rw [hreached, Option.isSome_some]
  | some reached =>
      rw [ensured_of_resolve (by simp [hresolve])] at h
      obtain ⟨rfl, -⟩ := Prod.mk.inj (Option.some.inj h)
      rw [hresolve, Option.isSome_some]

/-- When nothing had to be created, the path leads to a directory. -/
theorem resolve_ensured_false (h : tree.ensured path = some (more, false)) :
    (more.resolve path).bind more.get = some .dir := by
  refine resolve_ensured_of_none h ?_
  cases hresolve : tree.resolve path with
  | none => rfl
  | some reached =>
      rw [ensured_of_resolve (by simp [hresolve])] at h
      cases h

/-! ## Paths without links -/

/-- No link lies on a path. -/
def Unlinked (tree : FileTree) (path : FilePath) : Prop :=
  ∀ stage, stage <+: path → ∀ target, tree.get stage ≠ some (.link target)

/-- A plain path without links leads to itself if it leads anywhere. -/
theorem walk_of_unlinked {follow : FilePath → Option FilePath} {reached : FilePath}
    (current : FilePath)
    (hplain : Plain path) (hunlinked : ∀ stage, stage <+: path → ∀ target,
      tree.get (current ++ stage) ≠ some (.link target))
    (hcurrent : tree.get current ≠ none)
    (h : tree.walk follow current path = some reached) :
    reached = current ++ path ∧ tree.get (current ++ path) ≠ none := by
  induction path generalizing current with
  | nil =>
      rw [walk, Option.some.injEq] at h
      rw [List.append_nil]
      exact ⟨h.symm, hcurrent⟩
  | cons name path ih =>
      rw [List.append_cons]
      have hname : Proper name := hplain name List.mem_cons_self
      rcases walk_cons_cases h with ⟨hstays, -⟩ | ⟨-, hup, -⟩ | ⟨-, hcases⟩
      · exact absurd hstays hname.1
      · exact absurd hup hname.2
      · rcases hcases with ⟨hnode, h⟩ | ⟨content, hnode, rfl, rfl⟩ | ⟨target, middle, hnode, -⟩
        · refine ih _ (fun other hother => hplain other (List.mem_cons_of_mem _ hother))
            (fun stage hstage => ?_) (by simp [hnode]) h
          rw [List.append_assoc]
          exact hunlinked (name :: stage) (by simpa using hstage)
        · rw [List.append_nil]
          exact ⟨rfl, by simp [hnode]⟩
        · exact absurd hnode (hunlinked [name] (by simp) target)

/-- A plain path without links leads to itself if it leads anywhere. -/
theorem resolve_of_unlinked {reached : FilePath} (hplain : Plain path)
    (hunlinked : tree.Unlinked path) (h : tree.resolve path = some reached) :
    reached = path ∧ tree.get path ≠ none :=
  walk_of_unlinked [] hplain hunlinked (by simp) h

/-- Where no link lies on a plain path, the last directory made along it is new. -/
theorem new_of_made (h : tree.made done rest flag = some (more, new))
    (hplain : Plain (done ++ rest)) (hunlinked : tree.Unlinked (done ++ rest))
    (hnone : tree.get (done ++ rest) = none) (hrest : rest ≠ []) : new = true := by
  induction rest generalizing tree done flag with
  | nil => exact absurd rfl hrest
  | cons name rest ih =>
      rw [List.append_cons] at hplain hunlinked hnone
      have hstage : Plain (done ++ [name]) := fun other hother =>
        hplain other (List.mem_append_left _ hother)
      have hstageUnlinked : tree.Unlinked (done ++ [name]) := fun stage hpre =>
        hunlinked stage (hpre.trans (List.prefix_append _ _))
      rw [made] at h
      split at h
      · next hdir =>
          refine ih h hplain hunlinked hnone ?_
          rintro rfl
          obtain ⟨reached, hreached, -⟩ := Option.bind_eq_some_iff.1 hdir
          rw [List.append_nil] at hnone
          exact (resolve_of_unlinked hstage hstageUnlinked hreached).2 hnone
      · split at h
        · cases h
        · obtain ⟨between, hadded, hmade⟩ := Option.bind_eq_some_iff.1 h
          by_cases hlast : rest = []
          · rw [hlast, made] at hmade
            exact (Prod.mk.inj (Option.some.inj hmade)).2.symm
          · obtain ⟨dir, own, hslot, -, hget⟩ := get_of_added hadded
            obtain ⟨hpath, -, hresolve, -⟩ := slot_eq_some hslot
            rw [List.dropLast_concat] at hpath hresolve
            have hdone : dir = done :=
              (resolve_of_unlinked (fun other hother => hstage other (List.mem_append_left _ hother))
                (fun stage hpre => hstageUnlinked stage (hpre.trans (List.prefix_append _ _)))
                hresolve).1
            rw [hdone, ← hpath] at hget
            refine ih hmade hplain (fun stage hpre target hlink => ?_) ?_ hlast
            · rw [hget] at hlink
              split at hlink
              · cases hlink
              · exact hunlinked stage hpre target hlink
            · rw [hget, if_neg (by simpa using hlast), hnone]

/-- Where no link lies on a plain path, making sure of its directory succeeds or fails. -/
theorem new_of_ensured (h : tree.ensured path = some (more, new)) (hplain : Plain path)
    (hunlinked : tree.Unlinked path) (hpath : path ≠ []) : new = true := by
  have hfilter : path.filter (· ≠ []) = path :=
    List.filter_eq_self.2 fun name hname => by simpa using fun hnil => (hplain name hname).1 (Or.inl hnil)
  rw [ensured, hfilter] at h
  split at h
  · exact (Prod.mk.inj (Option.some.inj h)).2.symm
  · next hresolve =>
      refine new_of_made h hplain hunlinked ?_ hpath
      rw [List.nil_append]
      by_contra hnode
      obtain ⟨node, hnode⟩ := Option.ne_none_iff_exists'.1 hnode
      refine hresolve ?_
      rw [resolve_of_get hplain hnode fun target heq =>
        hunlinked path List.prefix_rfl target (by rw [hnode, heq]), Option.isSome_some]

end FileTree

section Calls

variable {ε : Type} [FileFault ε] {world : World} {path done rest : FilePath} {flag new : Bool}
  {more : FileTree}

/-- Creating a node adds it, or fails where it cannot be added. -/
theorem run_createNode_eq (path : FilePath) (node : Node) :
    (createNode path node : EStateM ε World Unit).run world =
      match world.tree.added path node with
      | some tree => .ok () { tree := tree, log := world.log ++ [path] }
      | none => .error FileFault.filesystemError { world with log := world.log ++ [path] } := by
  simp only [createNode, run_bind, run_record, run_get, FileTree.added]
  cases world.tree.slot path with
  | none => rfl
  | some slot =>
      obtain ⟨dir, name⟩ := slot
      simp only [Option.bind_some]
      cases world.tree.create dir name node <;> rfl

/-- Creating what is missing makes the directories. -/
theorem run_createMissing_of_made (h : world.tree.made done rest flag = some (more, new)) :
    ∃ log, (createMissing done rest flag : EStateM ε World Bool).run world =
      .ok new { tree := more, log := log } := by
  induction rest generalizing world done flag with
  | nil =>
      obtain ⟨rfl, rfl⟩ := Prod.mk.inj (Option.some.inj h)
      exact ⟨world.log, rfl⟩
  | cons name rest ih =>
      rw [FileTree.made] at h
      rw [run_createMissing_cons]
      split at h
      · next hdir =>
          rw [if_pos hdir]
          exact ih h
      · next hdir =>
          rw [if_neg hdir]
          split at h
          · cases h
          · next hthere =>
              obtain ⟨between, hadded, hmade⟩ := Option.bind_eq_some_iff.1 h
              rw [if_neg hthere, run_bind, run_createNode_eq, hadded]
              exact ih hmade

/-- Creating what is missing fails where the directories cannot be made. -/
theorem run_createMissing_of_not_made (h : world.tree.made done rest flag = none) :
    ∃ last, (createMissing done rest flag : EStateM ε World Bool).run world =
      .error FileFault.filesystemError last := by
  induction rest generalizing world done flag with
  | nil => cases h
  | cons name rest ih =>
      rw [FileTree.made] at h
      rw [run_createMissing_cons]
      split at h
      · next hdir =>
          rw [if_pos hdir]
          exact ih h
      · next hdir =>
          rw [if_neg hdir]
          split at h
          · next hthere => exact ⟨world, by rw [if_pos hthere]⟩
          · next hthere =>
              rw [if_neg hthere, run_bind, run_createNode_eq]
              cases hadded : world.tree.added (done ++ [name]) .dir with
              | none => exact ⟨_, rfl⟩
              | some between =>
                  rw [hadded, Option.bind_some] at h
                  exact @ih { tree := between, log := world.log ++ [done ++ [name]] } _ _ h

/-- Making sure that a directory is there. -/
theorem run_ensureDirectory_of_ensured (h : world.tree.ensured path = some (more, new)) :
    ∃ log, (ensureDirectory path : EStateM ε World Bool).run world =
      .ok new { tree := more, log := log } := by
  rw [ensureDirectory, run_bind, run_present]
  rw [FileTree.ensured] at h
  split at h
  · next hthere =>
      obtain ⟨rfl, rfl⟩ := Prod.mk.inj (Option.some.inj h)
      exact ⟨world.log, by simp [hthere]⟩
  · next hthere =>
      obtain ⟨log, hrun⟩ := run_createMissing_of_made (ε := ε) h
      exact ⟨log, by simpa [hthere, createDirectories] using hrun⟩

/-- Making sure of a directory that cannot be made fails. -/
theorem run_ensureDirectory_of_not_ensured (h : world.tree.ensured path = none) :
    ∃ last, (ensureDirectory path : EStateM ε World Bool).run world =
      .error FileFault.filesystemError last := by
  rw [ensureDirectory, run_bind, run_present]
  rw [FileTree.ensured] at h
  split at h
  · cases h
  · next hthere =>
      obtain ⟨last, hrun⟩ := run_createMissing_of_not_made (ε := ε) h
      exact ⟨last, by simpa [hthere, createDirectories] using hrun⟩

/-- Making sure of a directory throws nothing else. -/
theorem throws_ensureDirectory :
    Throws (· = FileFault.filesystemError) (ensureDirectory path : EStateM ε World Bool) := by
  intro world fault last hrun
  cases hensured : world.tree.ensured path with
  | none =>
      obtain ⟨after, herror⟩ := run_ensureDirectory_of_not_ensured (ε := ε) hensured
      rw [herror] at hrun
      exact (Result.error.inj hrun).1.symm
  | some ensured =>
      obtain ⟨log, hok⟩ := run_ensureDirectory_of_ensured (ε := ε) hensured
      rw [hok] at hrun
      cases hrun

end Calls

end FileSystem
