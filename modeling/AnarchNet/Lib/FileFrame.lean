import AnarchNet.Lib.FileSpecs

/-!
# What the file system calls do on any path

Paths may hold dots here. In a tree whose links all lead to files, a path leads to a directory
exactly if every stage of it does, so following a path is the same as resolving it lexically.
`Grows` says which nodes are new after a call.
-/

namespace FileSystem

namespace FileTree

/-- Every stage of the path is a directory. -/
def Passable (tree : FileTree) (path : FilePath) : Prop :=
  ∀ stage, stage <+: path → tree.get (normal [] stage) = some .dir

section Passable

variable {tree : FileTree}

/-- The root is passable. -/
theorem passable_nil (tree : FileTree) : tree.Passable [] := by
  intro stage hstage
  rw [List.prefix_nil.1 hstage]
  exact tree.get_root

/-- One more component adds one stage. -/
theorem passable_snoc {path : FilePath} {name : Name} :
    tree.Passable (path ++ [name]) ↔
      tree.Passable path ∧ tree.get (normal [] (path ++ [name])) = some .dir := by
  constructor
  · intro h
    exact ⟨fun stage hstage => h stage (hstage.trans (List.prefix_append _ _)),
      h _ (List.prefix_refl _)⟩
  · rintro ⟨hpath, hlast⟩ stage hstage
    rcases List.prefix_concat_iff.1 hstage with rfl | hstage
    · exact hlast
    · exact hpath stage hstage

/-- A beginning of a passable path is passable. -/
theorem Passable.of_append {left right : FilePath} (h : tree.Passable (left ++ right)) :
    tree.Passable left := fun stage hstage => h stage (hstage.trans (List.prefix_append _ _))

/-- The parent of a directory is a directory. -/
theorem get_dropLast {path : FilePath} (h : tree.get path = some .dir) :
    tree.get path.dropLast = some .dir := by
  rcases List.eq_nil_or_concat path with rfl | ⟨front, name, rfl⟩
  · exact h
  · rw [List.concat_eq_append] at h ⊢
    rw [List.dropLast_concat]
    exact get_dir_of_append h

/-- Behind a passable path, only a name can be missing. -/
theorem Passable.proper_of_not {path : FilePath} {name : Name} (h : tree.Passable path)
    (hname : ¬ tree.Passable (path ++ [name])) : Proper name := by
  have hdir := h path (List.prefix_refl path)
  by_contra hproper
  refine hname (passable_snoc.2 ⟨h, ?_⟩)
  rw [normal_append, normal_cons, normal_nil, enter]
  by_cases hstays : Stays name
  · rw [if_pos hstays, hdir]
  · have hup : name = dotDot := by
      by_contra hup
      exact hproper ⟨hstays, hup⟩
    rw [if_neg hstays, if_pos hup, get_dropLast hdir]

/-- Where a passable path leads is a directory. -/
theorem Passable.get_normal {path : FilePath} (h : tree.Passable path) :
    tree.get (normal [] path) = some .dir := h path (List.prefix_refl path)

/-- Directories that stay directories keep a path passable. -/
theorem Passable.mono {path : FilePath} {after : FileTree} (h : tree.Passable path)
    (hdirs : ∀ other, tree.get other = some .dir → after.get other = some .dir) :
    after.Passable path := fun stage hstage => hdirs _ (h stage hstage)

/-- A plain path to a directory is passable. -/
theorem passable_of_plain {path : FilePath} (hplain : Plain path)
    (h : tree.get path = some .dir) : tree.Passable path := by
  intro stage hstage
  obtain ⟨rest, rfl⟩ := hstage
  rw [normal_of_plain fun name hname => hplain name (List.mem_append_left _ hname)]
  exact get_dir_of_append h

/-- Without a component that leads upwards, a path to a directory is passable. -/
theorem passable_iff_get {path : FilePath} (h : dotDot ∉ path) :
    tree.Passable path ↔ tree.get (normal [] path) = some .dir := by
  refine ⟨Passable.get_normal, fun hdir stage hstage => ?_⟩
  obtain ⟨rest, hrest⟩ := normal_prefix_normal h hstage []
  exact get_dir_of_append (hrest ▸ hdir)

/-- A passable path resolves to where it leads lexically. -/
theorem resolve_of_passable {path : FilePath} (h : tree.Passable path) :
    tree.resolve path = some (normal [] path) := by
  induction path using List.reverseRecOn with
  | nil => rfl
  | append_singleton path name ih =>
      obtain ⟨hpath, hlast⟩ := passable_snoc.1 h
      rw [resolve, walk_append (ih hpath) hpath.get_normal]
      rw [normal_append, normal_cons, normal_nil] at hlast ⊢
      rw [enter] at hlast ⊢
      by_cases hstays : Stays name
      · rw [if_pos hstays, walk, if_pos hstays, walk]
      · rw [if_neg hstays] at hlast ⊢
        by_cases hup : name = dotDot
        · rw [if_pos hup, walk, if_neg hstays, if_pos hup, walk]
        · rw [if_neg hup] at hlast ⊢
          rw [walk, if_neg hstays, if_neg hup, hlast]
          rfl

/-- A walk to a directory goes through directories. -/
theorem stages_of_walk {limit : Nat} (hlinks : tree.LinksAvoidDirs) {current path reached : FilePath}
    (h : tree.walk (tree.follow limit) current path = some reached)
    (hcurrent : tree.get current = some .dir) (hreached : tree.get reached = some .dir) :
    ∀ stage, stage <+: path → tree.get (normal current stage) = some .dir := by
  induction path generalizing current with
  | nil =>
      intro stage hstage
      rw [List.prefix_nil.1 hstage]
      exact hcurrent
  | cons name path ih =>
      intro stage hstage
      cases stage with
      | nil => exact hcurrent
      | cons first stage =>
          obtain ⟨rfl, hrest⟩ := List.cons_prefix_cons.1 hstage
          rw [normal_cons, enter]
          rcases walk_cons_cases h with ⟨hstays, h⟩ | ⟨hstays, hup, h⟩ | ⟨hname, hcases⟩
          · rw [if_pos hstays]
            exact ih h hcurrent stage hrest
          · rw [if_neg hstays, if_pos hup]
            exact ih h (get_dropLast hcurrent) stage hrest
          · rw [if_neg hname.1, if_neg hname.2]
            rcases hcases with ⟨hnode, h⟩ | ⟨content, hnode, -, rfl⟩ |
              ⟨target, middle, hnode, hfollow, ⟨-, rfl⟩ | ⟨-, hmiddle, -⟩⟩
            · exact ih h hnode stage hrest
            · simp [hnode] at hreached
            · exact absurd hreached (hlinks _ _ _ _ hnode hfollow)
            · exact absurd hmiddle (hlinks _ _ _ _ hnode hfollow)

/-- A path leads to a directory exactly if it is passable. -/
theorem resolve_dir_iff (hlinks : tree.LinksAvoidDirs) {path : FilePath} :
    (tree.resolve path).bind tree.get = some .dir ↔ tree.Passable path := by
  constructor
  · intro h
    obtain ⟨reached, hresolve, hdir⟩ := Option.bind_eq_some_iff.1 h
    exact stages_of_walk hlinks hresolve tree.get_root hdir
  · intro h
    rw [resolve_of_passable h, Option.bind_some, h.get_normal]

/-- A walk that goes on has reached a directory. -/
theorem walk_snoc {follow : FilePath → Option FilePath} {current path reached : FilePath}
    {name : Name} (h : tree.walk follow current (path ++ [name]) = some reached)
    (hcurrent : tree.get current = some .dir) :
    ∃ middle, tree.walk follow current path = some middle ∧ tree.get middle = some .dir := by
  induction path generalizing current with
  | nil => exact ⟨current, rfl, hcurrent⟩
  | cons first path ih =>
      rw [List.cons_append] at h
      rw [walk]
      rcases walk_cons_cases h with ⟨hstays, h⟩ | ⟨hstays, hup, h⟩ | ⟨hname, hcases⟩
      · rw [if_pos hstays]
        exact ih h hcurrent
      · rw [if_neg hstays, if_pos hup]
        exact ih h (get_dropLast hcurrent)
      · rw [if_neg hname.1, if_neg hname.2]
        rcases hcases with ⟨hnode, h⟩ | ⟨content, -, hrest, -⟩ |
          ⟨target, middle, hnode, hfollow, ⟨hrest, -⟩ | ⟨-, hmiddle, h⟩⟩
        · rw [hnode]
          exact ih h hnode
        · simp at hrest
        · simp at hrest
        · rw [hnode]
          simp only [hfollow]
          by_cases hpath : path = []
          · exact ⟨middle, by simp [hpath], hmiddle⟩
          · simp only [hpath, if_false, hmiddle, if_true]
            exact ih h hmiddle

/-- The stages before the last component of a path that resolves are directories. -/
theorem passable_of_resolve_snoc (hlinks : tree.LinksAvoidDirs) {path : FilePath} {name : Name}
    {reached : FilePath} (h : tree.resolve (path ++ [name]) = some reached) :
    tree.Passable path := by
  obtain ⟨middle, hwalk, hmiddle⟩ := walk_snoc h tree.get_root
  exact stages_of_walk hlinks hwalk tree.get_root hmiddle

/-- The slot of a path lies where the path leads lexically. -/
theorem slot_normal (hlinks : tree.LinksAvoidDirs) {path dir : FilePath} {name : Name}
    (h : tree.slot path = some (dir, name)) :
    tree.Passable path.dropLast ∧ Proper name ∧ normal [] path = dir ++ [name] := by
  obtain ⟨hpath, hname, hresolve, hdir⟩ := slot_eq_some h
  have hpass : tree.Passable path.dropLast := stages_of_walk hlinks hresolve tree.get_root hdir
  refine ⟨hpass, hname, ?_⟩
  rw [resolve_of_passable hpass, Option.some.injEq] at hresolve
  rw [hpath, normal_append, normal_cons, normal_nil, hresolve, enter_of_proper hname]

end Passable

/-! ## New nodes -/

/-- The tree after has the nodes of the tree before and new ones of a kind. -/
def Grows (fresh : FilePath → Node → Prop) (before after : FileTree) : Prop :=
  ∃ new, after.nodes = before.nodes ++ new ∧ ∀ entry ∈ new, fresh entry.1 entry.2

section Grows

variable {fresh : FilePath → Node → Prop} {before middle after : FileTree}

/-- Nothing new. -/
theorem Grows.refl (tree : FileTree) : Grows fresh tree tree := ⟨[], by simp, by simp⟩

/-- New nodes twice. -/
theorem Grows.trans (h : Grows fresh before middle) (h' : Grows fresh middle after) :
    Grows fresh before after := by
  obtain ⟨new, hnodes, hnew⟩ := h
  obtain ⟨new', hnodes', hnew'⟩ := h'
  refine ⟨new ++ new', by rw [hnodes', hnodes, List.append_assoc], fun entry hentry => ?_⟩
  rcases List.mem_append.1 hentry with hentry | hentry
  · exact hnew entry hentry
  · exact hnew' entry hentry

/-- A weaker description of the new nodes. -/
theorem Grows.imp {weaker : FilePath → Node → Prop} (h : Grows fresh before after)
    (himp : ∀ path node, fresh path node → weaker path node) : Grows weaker before after := by
  obtain ⟨new, hnodes, hnew⟩ := h
  exact ⟨new, hnodes, fun entry hentry => himp _ _ (hnew entry hentry)⟩

/-- Creating a node adds it. -/
theorem grows_of_create {path : FilePath} {name : Name} {node : Node}
    (h : before.create path name node = some after) (hfresh : fresh (path ++ [name]) node) :
    Grows fresh before after := by
  unfold create at h
  split at h
  · rw [Option.some.injEq] at h
    subst h
    exact ⟨[(path ++ [name], node)], rfl, by simpa using hfresh⟩
  · simp at h

/-- A node is old or new. -/
theorem Grows.get (h : Grows fresh before after) (path : FilePath) :
    after.get path = before.get path ∨
      before.get path = none ∧ ∃ node, after.get path = some node ∧ fresh path node := by
  obtain ⟨new, hnodes, hnew⟩ := h
  rw [FileTree.get, FileTree.get, hnodes, List.lookup_append]
  cases hold : before.nodes.lookup path with
  | some node => exact Or.inl rfl
  | none =>
      cases hfound : new.lookup path with
      | none => exact Or.inl rfl
      | some node =>
          obtain ⟨left, right, hsplit, -⟩ := List.lookup_eq_some_iff.1 hfound
          exact Or.inr ⟨rfl, node, rfl, hnew (path, node) (by simp [hsplit])⟩

/-- Old nodes stay. -/
theorem Grows.get_of_some (h : Grows fresh before after) {path : FilePath} {node : Node}
    (hnode : before.get path = some node) : after.get path = some node := by
  rcases h.get path with heq | ⟨hnone, -⟩
  · rw [heq, hnode]
  · simp [hnone] at hnode

/-- A directory without new entries lists as before. -/
theorem Grows.names (h : Grows fresh before after) {dir : FilePath}
    (hdir : ∀ name node, ¬ fresh (dir ++ [name]) node) : after.names dir = before.names dir := by
  obtain ⟨new, hnodes, hnew⟩ := h
  rw [FileTree.names, FileTree.names, hnodes, List.map_append, List.filterMap_append,
    List.append_right_eq_self, List.filterMap_eq_nil_iff]
  intro key hkey
  obtain ⟨entry, hentry, rfl⟩ := List.mem_map.1 hkey
  cases hchild : childName dir entry.1 with
  | none => rfl
  | some name =>
      have hfresh := hnew entry hentry
      rw [childName_eq_some.1 hchild] at hfresh
      exact absurd hfresh (hdir name entry.2)

/-- Links still lead to files when the new ones do. -/
theorem LinksToFiles.of_grows (hlinks : before.LinksToFiles) (h : Grows fresh before after)
    (hfresh : ∀ path target, fresh path (.link target) →
      Plain target ∧ ∃ content, after.get target = some (.file content)) : after.LinksToFiles := by
  refine hlinks.mono (fun path content hfile => ⟨content, h.get_of_some hfile⟩)
    fun path target hlink => ?_
  rcases h.get path with heq | ⟨-, node, hnode, hnew⟩
  · exact Or.inl (heq ▸ hlink)
  · rw [hlink, Option.some.injEq] at hnode
    subst hnode
    exact Or.inr (hfresh path target hnew)

end Grows

end FileTree

section Calls

variable {ε : Type} [FileFault ε] {world : World}

/-- Creating a node fails, or adds it where its path leads. -/
theorem createNode_cases (hlinks : world.tree.LinksAvoidDirs) (path : FilePath) (node : Node) :
    (createNode path node : EStateM ε World Unit).run world =
        .error FileFault.filesystemError { world with log := world.log ++ [path] } ∨
      ∃ dir name tree, world.tree.Passable path.dropLast ∧ Proper name ∧
        normal [] path = dir ++ [name] ∧ world.tree.create dir name node = some tree ∧
        (createNode path node : EStateM ε World Unit).run world =
          .ok () { tree := tree, log := world.log ++ [path] } := by
  cases hslot : world.tree.slot path with
  | none =>
      left
      simp [createNode, hslot]
  | some slot =>
      obtain ⟨dir, name⟩ := slot
      cases hcreate : world.tree.create dir name node with
      | none =>
          left
          simp [createNode, hslot, hcreate]
      | some tree =>
          obtain ⟨hpass, hname, hnormal⟩ := FileTree.slot_normal hlinks hslot
          exact Or.inr ⟨dir, name, tree, hpass, hname, hnormal, hcreate, by
            simp [createNode, hslot, hcreate]⟩

/-- What going along a path and creating the missing directories did, however it ended: new
directories at the stages of the path, and attempts to create only what was missing. -/
structure WentAlong (done rest : FilePath) (before : World)
    (result : EStateM.Result ε World Bool) : Prop where
  links : result.state.tree.LinksToFiles
  grows : FileTree.Grows (fun path node => node = .dir ∧
    ∃ stage, stage <+: rest ∧ path = normal [] (done ++ stage)) before.tree result.state.tree
  log : ∀ path ∈ result.state.log, path ∈ before.log ∨ ∃ stage name, stage ++ [name] <+: rest ∧
    Proper name ∧ path = done ++ (stage ++ [name]) ∧
    result.state.tree.Passable (done ++ stage) ∧ before.tree.get (normal [] path) ≠ some .dir
  passable : ∀ made after, result = .ok made after → after.tree.Passable (done ++ rest)

omit [FileFault ε] in
/-- One more component in front, whose directory was there or was created. -/
theorem WentAlong.cons {done rest : FilePath} {name : Name} {before middle : World}
    {result : EStateM.Result ε World Bool} (h : WentAlong (done ++ [name]) rest middle result)
    (hdone : before.tree.Passable done)
    (hgrows : FileTree.Grows (fun path node => node = .dir ∧ path = normal [] (done ++ [name]))
      before.tree middle.tree)
    (hlog : ∀ path ∈ middle.log, path ∈ before.log ∨ Proper name ∧ path = done ++ [name] ∧
      before.tree.get (normal [] (done ++ [name])) ≠ some .dir) :
    WentAlong done (name :: rest) before result := by
  have hassoc : ∀ stage, done ++ [name] ++ stage = done ++ name :: stage := by simp
  have hold : ∀ path, before.tree.get path = some .dir → result.state.tree.get path = some .dir :=
    fun path hpath => h.grows.get_of_some (hgrows.get_of_some hpath)
  refine ⟨h.links, ?_, fun path hpath => ?_, fun made after hresult => ?_⟩
  · refine (hgrows.imp ?_).trans (h.grows.imp ?_)
    · rintro path node ⟨rfl, rfl⟩
      exact ⟨rfl, [name], by simp, rfl⟩
    · rintro path node ⟨rfl, stage, hstage, rfl⟩
      exact ⟨rfl, name :: stage, by simpa using hstage, by rw [hassoc]⟩
  · rcases h.log path hpath with hmiddle | ⟨stage, last, hstage, hlast, rfl, hpass, hnode⟩
    · rcases hlog path hmiddle with hbefore | ⟨hname, rfl, hnode⟩
      · exact Or.inl hbefore
      · exact Or.inr ⟨[], name, by simp, hname, rfl, by simpa using hdone.mono hold, hnode⟩
    · refine Or.inr ⟨name :: stage, last, by simpa using hstage, hlast, by simp, ?_, fun hdir => ?_⟩
      · rw [← hassoc]
        exact hpass
      · exact hnode (hgrows.get_of_some hdir)
  · rw [← hassoc]
    exact h.passable made after hresult

/-- Going along a path from a directory. -/
theorem wentAlong_createMissing {done : FilePath} (rest : FilePath) (made : Bool)
    (hlinks : world.tree.LinksToFiles) (hdone : world.tree.Passable done) :
    WentAlong done rest world ((createMissing done rest made : EStateM ε World Bool).run world) := by
  induction rest generalizing done made world with
  | nil =>
      refine ⟨hlinks, .refl _, fun path hpath => Or.inl hpath, fun flag after hresult => ?_⟩
      rw [List.append_nil]
      cases hresult
      exact hdone
  | cons name rest ih =>
      rw [run_createMissing_cons]
      by_cases hdir : world.tree.Passable (done ++ [name])
      · rw [if_pos ((FileTree.resolve_dir_iff hlinks.avoidDirs).2 hdir)]
        exact (ih false hlinks hdir).cons hdone (.refl _) fun path hpath => Or.inl hpath
      · rw [if_neg fun h => hdir ((FileTree.resolve_dir_iff hlinks.avoidDirs).1 h)]
        split
        · exact ⟨hlinks, .refl _, fun path hpath => Or.inl hpath, fun _ _ hresult => by cases hresult⟩
        · have hname := hdone.proper_of_not hdir
          have hnode : world.tree.get (normal [] (done ++ [name])) ≠ some .dir := fun h =>
            hdir (FileTree.passable_snoc.2 ⟨hdone, h⟩)
          rcases createNode_cases (ε := ε) hlinks.avoidDirs (done ++ [name]) .dir with
            hrun | ⟨dir, last, tree, -, -, hnormal, hcreate, hrun⟩
          · rw [EStateM.run_bind, hrun]
            refine ⟨hlinks, .refl _, fun path hpath => ?_, fun _ _ hresult => by cases hresult⟩
            rcases List.mem_append.1 hpath with hpath | hpath
            · exact Or.inl hpath
            · exact Or.inr ⟨[], name, by simp, hname, List.mem_singleton.1 hpath,
                by simpa using hdone, by rw [List.mem_singleton.1 hpath]; exact hnode⟩
          · rw [EStateM.run_bind, hrun]
            have hgrows : FileTree.Grows
                (fun path node => node = .dir ∧ path = normal [] (done ++ [name])) world.tree tree :=
              FileTree.grows_of_create hcreate ⟨rfl, hnormal.symm⟩
            have hmade : tree.get (normal [] (done ++ [name])) = some .dir := by
              rw [FileTree.get_create hcreate, if_pos hnormal]
            have hlinks' : tree.LinksToFiles := hlinks.of_grows hgrows (by simp)
            refine (ih true hlinks' (FileTree.passable_snoc.2
              ⟨hdone.mono fun path hpath => hgrows.get_of_some hpath, hmade⟩)).cons hdone hgrows
              fun path hpath => ?_
            rcases List.mem_append.1 hpath with hpath | hpath
            · exact Or.inl hpath
            · exact Or.inr ⟨hname, List.mem_singleton.1 hpath, hnode⟩

/-- Making sure that a directory is there, on any path: the stages of the path, empty components
aside, become directories, or the path led to something already. -/
theorem wentAlong_ensureDirectory (path : FilePath) (hlinks : world.tree.LinksToFiles) :
    (world.tree.resolve path).isSome ∧
        (ensureDirectory path : EStateM ε World Bool).run world = .ok true world ∨
      world.tree.resolve path = none ∧
        WentAlong [] (path.filter (· ≠ [])) world
          ((ensureDirectory path : EStateM ε World Bool).run world) := by
  rw [ensureDirectory, EStateM.run_bind, run_present]
  cases hresolve : world.tree.resolve path with
  | some reached => exact Or.inl ⟨rfl, by simp⟩
  | none =>
      refine Or.inr ⟨rfl, ?_⟩
      simp only [Option.isSome_none, Bool.false_eq_true, if_false, createDirectories]
      exact wentAlong_createMissing _ false hlinks (FileTree.passable_nil _)

end Calls

end FileSystem
