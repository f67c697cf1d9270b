import AnarchNet.Lib.FileCalls

/-!
# What the file system calls do on plain paths

One specification per call, for paths without dots in a tree whose links all lead to files.
Each says that the call returns, what it returns, and the node at every path afterwards, so a
program that uses the call never unfolds it.
-/

namespace FileSystem

namespace FileTree

/-- Every link of the tree leads straight to an existing file. -/
def LinksToFiles (tree : FileTree) : Prop :=
  ∀ path target, tree.get path = some (.link target) →
    Plain target ∧ ∃ content, tree.get target = some (.file content)

/-- Links that lead to files do not lead to directories. -/
theorem LinksToFiles.avoidDirs {tree : FileTree} (h : tree.LinksToFiles) : tree.LinksAvoidDirs := by
  intro path target limit reached hlink hfollow
  obtain ⟨hplain, content, hfile⟩ := h path target hlink
  cases limit with
  | zero => simp [follow] at hfollow
  | succ limit =>
      rw [follow, walk_of_get [] hplain hfile (by simp), Option.some.injEq] at hfollow
      rw [← hfollow, List.nil_append, hfile]
      simp

/-- The property survives when files stay files and the new links lead to files. -/
theorem LinksToFiles.mono {tree after : FileTree} (h : tree.LinksToFiles)
    (hfiles : ∀ path content, tree.get path = some (.file content) →
      ∃ content', after.get path = some (.file content'))
    (hlinks : ∀ path target, after.get path = some (.link target) →
      tree.get path = some (.link target) ∨
        (Plain target ∧ ∃ content, after.get target = some (.file content))) :
    after.LinksToFiles := by
  intro path target hlink
  rcases hlinks path target hlink with hold | hnew
  · obtain ⟨hplain, content, hfile⟩ := h path target hold
    exact ⟨hplain, hfiles target content hfile⟩
  · exact hnew

/-- What `slot` found out. -/
theorem slot_eq_some {tree : FileTree} {path dir : FilePath} {name : Name}
    (h : tree.slot path = some (dir, name)) :
    path = path.dropLast ++ [name] ∧ Proper name ∧ tree.resolve path.dropLast = some dir ∧
      tree.get dir = some .dir := by
  unfold slot at h
  cases hlast : path.getLast? with
  | none => simp [hlast] at h
  | some last =>
      simp only [hlast] at h
      by_cases hproper : Proper last
      · rw [if_pos hproper] at h
        cases hresolve : tree.resolve path.dropLast with
        | none => simp [hresolve] at h
        | some found =>
            simp only [hresolve] at h
            by_cases hfound : tree.get found = some .dir
            · rw [if_pos hfound, Option.some.injEq, Prod.mk.injEq] at h
              obtain ⟨rfl, rfl⟩ := h
              exact ⟨(List.dropLast_append_getLast? _ hlast).symm, hproper, rfl, hfound⟩
            · simp [hfound] at h
      · simp [hproper] at h

/-- Where a plain path would be created. -/
theorem slot_of_plain {tree : FileTree} {dir : FilePath} {name : Name} (hplain : Plain (dir ++ [name]))
    (hdir : tree.get dir = some .dir) : tree.slot (dir ++ [name]) = some (dir, name) := by
  have hname : Proper name := hplain name (by simp)
  have hresolve : tree.resolve dir = some dir :=
    resolve_of_get (fun other hother => hplain other (by simp [hother])) hdir (by simp)
  simp [slot, hname, hresolve, hdir]

/-- The slot of a plain path lies right above it. -/
theorem slot_eq_of_plain {tree : FileTree} (hlinks : tree.LinksAvoidDirs) {path dir : FilePath}
    {name : Name} (hplain : Plain path) (h : tree.slot path = some (dir, name)) :
    path = dir ++ [name] ∧ tree.get dir = some .dir := by
  obtain ⟨hpath, -, hresolve, hdir⟩ := slot_eq_some h
  have hnormal := walk_eq_normal hlinks hresolve hdir
  have hprefix : Plain path.dropLast := fun other hother =>
    hplain other (List.mem_of_mem_dropLast hother)
  rw [normal_of_plain hprefix, List.nil_append] at hnormal
  rw [hnormal]
  exact ⟨hpath, hnormal ▸ hdir⟩

/-- A plain path locates the node it names. -/
theorem locate_of_plain {tree : FileTree} {dir : FilePath} {name : Name} {node : Node}
    (hplain : Plain (dir ++ [name])) (hnode : tree.get (dir ++ [name]) = some node) :
    tree.locate (dir ++ [name]) = some (dir ++ [name]) := by
  rw [locate, slot_of_plain hplain (get_parent (by rw [hnode]; simp))]
  simp [hnode]

/-- A plain path to a missing node locates nothing. -/
theorem locate_of_missing {tree : FileTree} (hlinks : tree.LinksAvoidDirs) {path : FilePath}
    (hplain : Plain path) (hnode : tree.get path = none) : tree.locate path = none := by
  unfold locate
  split
  · exact resolve_of_missing hlinks hplain hnode
  · rename_i dir name hslot
    rw [← (slot_eq_of_plain hlinks hplain hslot).1, if_pos hnode]

end FileTree

section Calls

variable {ε : Type} {world : World}

/-- `present` looks the path up. -/
@[simp] theorem run_present (path : FilePath) :
    (present path : EStateM ε World Bool).run world =
      .ok (world.tree.resolve path).isSome world := rfl

/-- `isDirectory` looks the path up. -/
@[simp] theorem run_isDirectory (path : FilePath) :
    (isDirectory path : EStateM ε World Bool).run world =
      .ok (decide ((world.tree.resolve path).bind world.tree.get = some .dir)) world := rfl

/-- `record` extends the log. -/
@[simp] theorem run_record (path : FilePath) :
    (record path : EStateM ε World Unit).run world =
      .ok () { world with log := world.log ++ [path] } := rfl

/-- `setTree` replaces the tree. -/
@[simp] theorem run_setTree (tree : FileTree) :
    (setTree tree : EStateM ε World Unit).run world = .ok () { world with tree := tree } := rfl

/-- `readAll` reads the file. -/
@[simp] theorem run_readAll (file : FilePath) :
    (readAll file : EStateM ε World (Option Bytes)).run world =
      .ok (world.tree.content file) world := rfl

/-- `openIn` resolves the path and notes it. -/
@[simp] theorem run_openIn (path : FilePath) :
    (openIn path : EStateM ε World (Option FilePath)).run world =
      .ok (world.tree.resolve path) { world with log := world.log ++ [path] } := rfl

variable [FileFault ε]

/-- Creating a node in an existing directory under a fresh name. -/
theorem run_createNode {dir : FilePath} {name : Name} (node : Node) (hplain : Plain (dir ++ [name]))
    (hdir : world.tree.get dir = some .dir) (hnew : world.tree.get (dir ++ [name]) = none)
    (hvalid : ValidName name) :
    ∃ after, (createNode (dir ++ [name]) node : EStateM ε World Unit).run world = .ok () after ∧
      ∀ path, after.tree.get path =
        if path = dir ++ [name] then some node else world.tree.get path := by
  obtain ⟨tree, htree⟩ := FileTree.create_isSome node hdir hnew hvalid
  refine ⟨{ tree := tree, log := world.log ++ [dir ++ [name]] }, ?_, FileTree.get_create htree⟩
  simp [createNode, FileTree.slot_of_plain hplain hdir, htree]

/-- One step of `createMissing`. -/
theorem run_createMissing_cons (done rest : FilePath) (name : Name) (made : Bool) :
    (createMissing done (name :: rest) made : EStateM ε World Bool).run world =
      if (world.tree.resolve (done ++ [name])).bind world.tree.get = some .dir then
        (createMissing (done ++ [name]) rest false).run world
      else if (world.tree.resolve (done ++ [name])).isSome then
        .error FileFault.filesystemError world
      else (createNode (done ++ [name]) .dir >>= fun _ =>
        createMissing (done ++ [name]) rest true).run world := by
  rw [createMissing]
  simp only [EStateM.run_bind, run_isDirectory, decide_eq_true_eq, EStateM.run_ite, run_present,
    EStateM.run_throw_eq]

/-- Creating the missing directories along a plain path that meets nothing but directories. -/
theorem run_createMissing {done rest : FilePath} (made : Bool) (hlinks : world.tree.LinksToFiles)
    (hplain : Plain (done ++ rest)) (hdone : world.tree.get done = some .dir)
    (hfree : ∀ path, path <+: rest →
      world.tree.get (done ++ path) = none ∨ world.tree.get (done ++ path) = some .dir)
    (hvalid : ∀ name ∈ rest, ValidName name) :
    ∃ after, (createMissing done rest made : EStateM ε World Bool).run world =
        .ok (if rest = [] then made else decide (world.tree.get (done ++ rest) = none)) after ∧
      ∀ path, after.tree.get path =
        if path <+: done ++ rest then some .dir else world.tree.get path := by
  induction rest generalizing done made world with
  | nil =>
      refine ⟨world, by simp [createMissing], fun path => ?_⟩
      by_cases hpath : path <+: done ++ []
      · rw [if_pos hpath]
        obtain ⟨tail, htail⟩ := hpath
        rw [List.append_nil] at htail
        exact FileTree.get_dir_of_append (htail ▸ hdone)
      · rw [if_neg hpath]
  | cons name rest ih =>
      have hassoc : done ++ name :: rest = done ++ [name] ++ rest := by simp
      have hplain' : Plain (done ++ [name]) := fun other hother => hplain other (by
        rw [hassoc]
        exact List.mem_append_left _ hother)
      have hvalid' : ∀ other ∈ rest, ValidName other := fun other hother =>
        hvalid other (by simp [hother])
      rw [hassoc] at hplain
      rcases hfree [name] (by simp) with hnone | hdir
      · have hresolve := FileTree.resolve_of_missing hlinks.avoidDirs hplain' hnone
        obtain ⟨middle, hrun, hget⟩ :=
          run_createNode (ε := ε) .dir hplain' hdone hnone (hvalid name (by simp))
        have hmissing : ∀ path, path ≠ [] → world.tree.get (done ++ [name] ++ path) = none :=
          fun path hpath => FileTree.get_below_eq_none (by simp [hnone]) hpath
        have hlinks' : middle.tree.LinksToFiles := by
          refine hlinks.mono (fun path content hfile => ⟨content, ?_⟩) fun path target hlink => ?_
          · rw [hget, if_neg (by rintro rfl; simp [hnone] at hfile), hfile]
          · rw [hget] at hlink
            split at hlink
            · simp at hlink
            · exact Or.inl hlink
        have hfree' : ∀ path, path <+: rest →
            middle.tree.get (done ++ [name] ++ path) = none ∨
              middle.tree.get (done ++ [name] ++ path) = some .dir := by
          intro path _
          by_cases hpath : path = []
          · exact Or.inr (by simp [hpath, hget])
          · exact Or.inl (by rw [hget, if_neg (by simp [hpath]), hmissing path hpath])
        obtain ⟨after, hafter, hget'⟩ :=
          ih true hlinks' hplain (by simp [hget]) hfree' hvalid'
        refine ⟨after, ?_, fun path => ?_⟩
        · rw [run_createMissing_cons, hresolve]
          simp only [Option.bind_none, Option.isSome_none, reduceCtorEq, if_false,
            EStateM.run_bind, hrun, hafter, Bool.false_eq_true]
          by_cases hrest : rest = []
          · simp [hrest, hnone]
          · have hmiddle : middle.tree.get (done ++ [name] ++ rest) = none := by
              rw [hget, if_neg (by simp [hrest]), hmissing rest hrest]
            rw [if_neg hrest, hmiddle, hassoc, hmissing rest hrest]
        · rw [hget' path, hget path, hassoc]
          by_cases hpath : path <+: done ++ [name] ++ rest
          · rw [if_pos hpath, if_pos hpath]
          · rw [if_neg hpath, if_neg hpath,
              if_neg (by rintro rfl; exact hpath (List.prefix_append _ _))]
      · have hresolve := FileTree.resolve_of_get hplain' hdir (by simp)
        have hfree' : ∀ path, path <+: rest →
            world.tree.get (done ++ [name] ++ path) = none ∨
              world.tree.get (done ++ [name] ++ path) = some .dir := by
          intro path hpath
          have := hfree (name :: path) (by simpa using hpath)
          simpa using this
        obtain ⟨after, hafter, hget⟩ := ih false hlinks hplain hdir hfree' hvalid'
        refine ⟨after, ?_, fun path => by rw [hget path, hassoc]⟩
        rw [run_createMissing_cons, hresolve, Option.bind_some, if_pos hdir, hafter]
        by_cases hrest : rest = []
        · simp [hrest, hdir]
        · rw [if_neg hrest, if_neg (by simp), hassoc]

/-- Making sure that a plain directory is there. -/
theorem run_ensureDirectory {path : FilePath} (hlinks : world.tree.LinksToFiles) (hplain : Plain path)
    (hfree : ∀ above, above <+: path →
      world.tree.get above = none ∨ world.tree.get above = some .dir)
    (hvalid : ∀ name ∈ path, ValidName name) :
    ∃ after, (ensureDirectory path : EStateM ε World Bool).run world = .ok true after ∧
      after.tree.LinksToFiles ∧ ∀ other, after.tree.get other =
        if other <+: path then some .dir else world.tree.get other := by
  suffices h : ∃ after, (ensureDirectory path : EStateM ε World Bool).run world = .ok true after ∧
      ∀ other, after.tree.get other =
        if other <+: path then some .dir else world.tree.get other by
    obtain ⟨after, hrun, hget⟩ := h
    refine ⟨after, hrun, hlinks.mono (fun file content hfile => ⟨content, ?_⟩)
      fun link target hlink => ?_, hget⟩
    · rw [hget, if_neg, hfile]
      intro habove
      rcases hfree file habove with hnode | hnode <;> simp [hnode] at hfile
    · rw [hget] at hlink
      split at hlink
      · simp at hlink
      · exact Or.inl hlink
  rcases hfree path (List.prefix_refl path) with hnone | hdir
  · have hresolve := FileTree.resolve_of_missing hlinks.avoidDirs hplain hnone
    have hfilter : path.filter (· ≠ []) = path := by
      rw [List.filter_eq_self]
      intro name hname
      have hproper : Proper name := hplain name hname
      simpa using fun hnil => hproper.1 (Or.inl hnil)
    have hpath : path ≠ [] := by
      rintro rfl
      simp at hnone
    obtain ⟨after, hrun, hget⟩ := run_createMissing (ε := ε) false
      hlinks (by simpa using hplain) world.tree.get_root (by simpa using hfree) hvalid
    refine ⟨after, ?_, by simpa using hget⟩
    rw [ensureDirectory, EStateM.run_bind, run_present, hresolve, createDirectories, hfilter]
    simp only [Option.isSome_none, Bool.false_eq_true, if_false, hrun]
    simp [hpath, hnone]
  · have hresolve := FileTree.resolve_of_get hplain hdir (by simp)
    refine ⟨world, by simp [ensureDirectory, hresolve], fun other => ?_⟩
    by_cases hother : other <+: path
    · obtain ⟨tail, rfl⟩ := hother
      rw [if_pos (List.prefix_append _ _), FileTree.get_dir_of_append hdir]
    · rw [if_neg hother]

omit [FileFault ε] in
/-- Opening a plain path for writing leaves an empty file there. -/
theorem run_openOut {dir : FilePath} {name : Name} (hlinks : world.tree.LinksToFiles)
    (hplain : Plain (dir ++ [name])) (hdir : world.tree.get dir = some .dir)
    (hnode : world.tree.get (dir ++ [name]) = none ∨
      ∃ content, world.tree.get (dir ++ [name]) = some (.file content))
    (hvalid : ValidName name) :
    ∃ after, (openOut (dir ++ [name]) : EStateM ε World (Option FilePath)).run world =
        .ok (some (dir ++ [name])) after ∧
      ∀ path, after.tree.get path =
        if path = dir ++ [name] then some (.file []) else world.tree.get path := by
  rcases hnode with hnone | ⟨content, hfile⟩
  · obtain ⟨tree, htree⟩ := FileTree.create_isSome (.file []) hdir hnone hvalid
    refine ⟨{ tree := tree, log := world.log ++ [dir ++ [name]] }, ?_, FileTree.get_create htree⟩
    have hresolve := FileTree.resolve_of_missing hlinks.avoidDirs hplain hnone
    simp [openOut, hresolve, FileTree.slot_of_plain hplain hdir, htree]
  · refine ⟨{ tree := world.tree.write (dir ++ [name]) [],
              log := world.log ++ [dir ++ [name]] }, ?_, fun path => ?_⟩
    · have hresolve := FileTree.resolve_of_get hplain hfile (by simp)
      simp [openOut, hresolve, hfile]
    · rw [FileTree.get_write]
      by_cases hpath : path = dir ++ [name]
      · simp [hpath, hfile, FileTree.Node.rewrite]
      · rw [if_neg hpath, if_neg hpath]

omit [FileFault ε] in
/-- Writing to an open file changes its content there. -/
theorem run_writeAt {file : FilePath} {content : Bytes} (position : Nat) (bytes : Bytes)
    (hfile : world.tree.get file = some (.file content)) :
    ∃ after, (writeAt file position bytes : EStateM ε World Unit).run world = .ok () after ∧
      ∀ path, after.tree.get path =
        if path = file then some (.file (overlay content position bytes))
        else world.tree.get path := by
  refine ⟨_, rfl, fun path => ?_⟩
  rw [FileTree.get_write]
  by_cases hpath : path = file
  · simp [hpath, hfile, FileTree.content, FileTree.Node.rewrite]
  · rw [if_neg hpath, if_neg hpath]

/-- Writing at the end of a file appends. -/
theorem overlay_length (content bytes : Bytes) :
    overlay content content.length bytes = content ++ bytes := by
  simp [overlay]

/-- Writing to an empty file from its beginning stores the bytes. -/
@[simp] theorem overlay_nil (bytes : Bytes) : overlay [] 0 bytes = bytes := by
  simp [overlay]

/-- Listing a plain directory. -/
theorem run_listDirectory {path : FilePath} (listing : Listing) (hplain : Plain path)
    (hdir : world.tree.get path = some .dir) :
    (listDirectory listing path : EStateM ε World (List Name)).run world =
      .ok (listing.order (world.tree.names path)) { world with log := world.log ++ [path] } := by
  have hresolve := FileTree.resolve_of_get hplain hdir (by simp)
  simp [listDirectory, hresolve, hdir]

/-- Listing a plain path that is not there throws. -/
theorem run_listDirectory_missing {path : FilePath} (listing : Listing)
    (hlinks : world.tree.LinksToFiles) (hplain : Plain path)
    (hnone : world.tree.get path = none) :
    (listDirectory listing path : EStateM ε World (List Name)).run world =
      .error FileFault.filesystemError { world with log := world.log ++ [path] } := by
  have hresolve := FileTree.resolve_of_missing hlinks.avoidDirs hplain hnone
  simp [listDirectory, hresolve]

/-- Removing what a path names takes away its node and everything below, at least one node. -/
theorem run_removeAll_found {path found : FilePath} {node : Node}
    (hlocate : world.tree.locate path = some found) (hnode : world.tree.get found = some node)
    (hends : EndsInName path) (hroot : found ≠ []) :
    ∃ count, (removeAll path : EStateM ε World Nat).run world =
      .ok (count + 1) { tree := world.tree.prune found, log := world.log ++ [path] } := by
  have hmem : (found, node) ∈ world.tree.nodes := by
    obtain ⟨left, right, hnodes, -⟩ := List.lookup_eq_some_iff.1 hnode
    simp [hnodes]
  have hpos : 0 < (world.tree.nodes.filter fun entry => decide (found <+: entry.1)).length := by
    refine List.length_pos_of_mem (a := (found, node)) ?_
    simp [hmem]
  obtain ⟨count, hcount⟩ := Nat.exists_eq_add_of_lt hpos
  rw [Nat.zero_add] at hcount
  exact ⟨count, by simp [removeAll, hlocate, hcount, hends, hroot]⟩

/-- Removing a plain path takes away its node and everything below. -/
theorem run_removeAll {dir : FilePath} {name : Name} {node : Node} (hplain : Plain (dir ++ [name]))
    (hnode : world.tree.get (dir ++ [name]) = some node) :
    ∃ count after, (removeAll (dir ++ [name]) : EStateM ε World Nat).run world =
        .ok (count + 1) after ∧
      ∀ path, after.tree.get path =
        if dir ++ [name] <+: path then none else world.tree.get path := by
  obtain ⟨count, hrun⟩ := run_removeAll_found (ε := ε) (FileTree.locate_of_plain hplain hnode) hnode
    (endsInName_snoc dir (hplain name (by simp))) (by simp)
  exact ⟨count, _, hrun, FileTree.get_prune (by simp)⟩

/-- Removing a plain path that is not there removes nothing. -/
theorem run_removeAll_missing {path : FilePath} (hlinks : world.tree.LinksToFiles)
    (hplain : Plain path) (hnone : world.tree.get path = none) :
    (removeAll path : EStateM ε World Nat).run world =
      .ok 0 { world with log := world.log ++ [path] } := by
  simp [removeAll, FileTree.locate_of_missing hlinks.avoidDirs hplain hnone]

/-- Removing a plain file. -/
theorem run_remove {dir : FilePath} {name : Name} {content : Bytes} (hplain : Plain (dir ++ [name]))
    (hnode : world.tree.get (dir ++ [name]) = some (.file content)) :
    ∃ after, (remove (dir ++ [name]) : EStateM ε World Bool).run world = .ok true after ∧
      ∀ path, after.tree.get path =
        if path = dir ++ [name] then none else world.tree.get path := by
  refine ⟨{ tree := world.tree.prune (dir ++ [name]), log := world.log ++ [dir ++ [name]] }, ?_,
    fun path => ?_⟩
  · have hnames : world.tree.names (dir ++ [name]) = [] := FileTree.names_eq_nil (by simp [hnode])
    have hends := endsInName_snoc dir (hplain name (by simp))
    simp [remove, FileTree.locate_of_plain hplain hnode, hnames, hends]
  · rw [FileTree.get_prune (by simp)]
    by_cases hpath : path = dir ++ [name]
    · simp [hpath]
    · rw [if_neg hpath]
      split
      · rename_i hpre
        obtain ⟨rest, rfl⟩ := hpre
        exact (FileTree.get_below_eq_none (by simp [hnode]) (by simpa using hpath)).symm
      · rfl

/-- Removing a plain path that is not there does nothing. -/
theorem run_remove_missing {path : FilePath} (hlinks : world.tree.LinksToFiles)
    (hplain : Plain path) (hnone : world.tree.get path = none) :
    (remove path : EStateM ε World Bool).run world =
      .ok false { world with log := world.log ++ [path] } := by
  simp [remove, FileTree.locate_of_missing hlinks.avoidDirs hplain hnone]

end Calls

end FileSystem
