import AnarchNet.Lib.FileFrame

/-!
# Paths that meet nothing but directories

The calls on paths with dots, when every stage of the path is a directory or is missing. The
missing stages are created one by one, and nothing is thrown. A path that resolves leads through
directories to a directory or a file, or to a link whose target is a file.
-/

namespace FileSystem

namespace FileTree

variable {tree : FileTree}

/-- Every stage of the path is a directory or missing, and every name on it can be stored. -/
structure Enterable (tree : FileTree) (path : FilePath) : Prop where
  stages : ∀ stage, stage <+: path →
    tree.get (normal [] stage) = none ∨ tree.get (normal [] stage) = some .dir
  names : ∀ name ∈ path, Proper name → ValidName name

/-- The stages of a filtered path are those of the path. -/
theorem exists_prefix_of_filter {stage path : FilePath} (h : stage <+: path.filter (· ≠ [])) :
    ∃ front, front <+: path ∧ normal [] stage = normal [] front := by
  rcases List.eq_nil_or_concat stage with rfl | ⟨rest, name, rfl⟩
  · exact ⟨[], List.nil_prefix, rfl⟩
  · rw [List.concat_eq_append] at h ⊢
    obtain ⟨front, hfront, rfl⟩ := snoc_prefix_filter h
    exact ⟨front ++ [name], hfront, by rw [normal_append, normal_append, normal_filter]⟩

/-- Empty components do not matter to whether a path is passable. -/
theorem passable_filter {path : FilePath} :
    tree.Passable (path.filter (· ≠ [])) ↔ tree.Passable path := by
  constructor
  · intro h stage hstage
    rw [← normal_filter]
    exact h _ (hstage.filter _)
  · intro h stage hstage
    obtain ⟨front, hfront, heq⟩ := exists_prefix_of_filter hstage
    rw [heq]
    exact h front hfront

/-- Empty components do not matter to whether a path is enterable. -/
theorem Enterable.filter {path : FilePath} (h : tree.Enterable path) :
    tree.Enterable (path.filter (· ≠ [])) := by
  refine ⟨fun stage hstage => ?_, fun name hname => h.names name (List.mem_of_mem_filter hname)⟩
  obtain ⟨front, hfront, heq⟩ := exists_prefix_of_filter hstage
  rw [heq]
  exact h.stages front hfront

/-- A beginning of an enterable path is enterable. -/
theorem Enterable.of_append {left right : FilePath} (h : tree.Enterable (left ++ right)) :
    tree.Enterable left :=
  ⟨fun stage hstage => h.stages stage (hstage.trans (List.prefix_append _ _)),
    fun name hname => h.names name (List.mem_append_left _ hname)⟩

/-- A passable path is enterable: the names on it are stored already. -/
theorem Passable.enterable {path : FilePath} (h : tree.Passable path) : tree.Enterable path := by
  refine ⟨fun stage hstage => Or.inr (h stage hstage), fun name hname hproper => ?_⟩
  obtain ⟨front, back, rfl⟩ := List.append_of_mem hname
  have hnode := h (front ++ [name]) ⟨back, by simp⟩
  rw [normal_append, normal_cons, normal_nil, enter_of_proper hproper] at hnode
  exact get_valid (by rw [hnode]; simp)

/-- A path that resolves goes through directories to a directory, or to a file, or to a link
whose target is a file. -/
theorem resolve_cases (hlinks : tree.LinksToFiles) {path reached : FilePath}
    (h : tree.resolve path = some reached) :
    (tree.Passable path ∧ reached = normal [] path) ∨
      ∃ dir name content, path = dir ++ [name] ∧ tree.Passable dir ∧ Proper name ∧
        tree.get reached = some (.file content) ∧
        (reached = normal [] path ∨ tree.get (normal [] path) = some (.link reached)) := by
  rcases List.eq_nil_or_concat path with rfl | ⟨dir, name, rfl⟩
  · exact Or.inl ⟨passable_nil tree, by simpa [resolve, walk] using h.symm⟩
  rw [List.concat_eq_append] at h ⊢
  have hdir := passable_of_resolve_snoc hlinks.avoidDirs h
  rw [resolve, walk_append (resolve_of_passable hdir) hdir.get_normal] at h
  have hnormal : normal [] (dir ++ [name]) = enter (normal [] dir) name := by
    rw [normal_append, normal_cons, normal_nil]
  rw [hnormal]
  rcases walk_cons_cases h with ⟨hstays, h⟩ | ⟨hstays, hup, h⟩ | ⟨hname, hcases⟩
  · have henter : enter (normal [] dir) name = normal [] dir := by simp [enter, hstays]
    rw [walk, Option.some.injEq] at h
    rw [henter]
    exact Or.inl ⟨passable_snoc.2 ⟨hdir, by rw [hnormal, henter, hdir.get_normal]⟩, h.symm⟩
  · have henter : enter (normal [] dir) name = (normal [] dir).dropLast := by
      rw [enter, if_neg hstays, if_pos hup]
    rw [walk, Option.some.injEq] at h
    rw [henter]
    exact Or.inl ⟨passable_snoc.2
      ⟨hdir, by rw [hnormal, henter, get_dropLast hdir.get_normal]⟩, h.symm⟩
  · rw [enter_of_proper hname]
    rcases hcases with ⟨hnode, h⟩ | ⟨content, hnode, -, rfl⟩ |
      ⟨target, middle, hnode, hfollow, ⟨-, rfl⟩ | ⟨hrest, -, -⟩⟩
    · rw [walk, Option.some.injEq] at h
      exact Or.inl ⟨passable_snoc.2 ⟨hdir, by rw [hnormal, enter_of_proper hname, hnode]⟩, h.symm⟩
    · exact Or.inr ⟨dir, name, content, rfl, hdir, hname, hnode, Or.inl rfl⟩
    · obtain ⟨hplain, content, hfile⟩ := hlinks _ _ hnode
      rw [follow, walk_of_get [] hplain hfile (by simp), List.nil_append, Option.some.injEq]
        at hfollow
      subst hfollow
      exact Or.inr ⟨dir, name, content, rfl, hdir, hname, hfile, Or.inr hnode⟩
    · exact absurd rfl hrest

/-- A name behind a passable path that is not there does not resolve. -/
theorem resolve_snoc_missing (hlinks : tree.LinksToFiles) {dir : FilePath} {name : Name}
    (hname : Proper name) (hnone : tree.get (normal [] dir ++ [name]) = none) :
    tree.resolve (dir ++ [name]) = none := by
  have hnormal : normal [] (dir ++ [name]) = normal [] dir ++ [name] := by
    rw [normal_append, normal_cons, normal_nil, enter_of_proper hname]
  cases hresolve : tree.resolve (dir ++ [name]) with
  | none => rfl
  | some reached =>
      rcases resolve_cases hlinks hresolve with ⟨hpass, -⟩ |
        ⟨front, last, content, -, -, -, hfile, rfl | hlink⟩
      · have hnode := hpass.get_normal
        rw [hnormal, hnone] at hnode
        simp at hnode
      · rw [hnormal, hnone] at hfile
        simp at hfile
      · rw [hnormal, hnone] at hlink
        simp at hlink

/-- A name behind a passable path that is a link to a file resolves to the file. -/
theorem resolve_snoc_link {dir target : FilePath} {name : Name} {content : Bytes}
    (hdir : tree.Passable dir) (hname : Proper name)
    (hlink : tree.get (normal [] dir ++ [name]) = some (.link target)) (htarget : Plain target)
    (hfile : tree.get target = some (.file content)) :
    tree.resolve (dir ++ [name]) = some target := by
  have hfollow : tree.follow 40 target = some target :=
    walk_of_get [] htarget hfile (by simp)
  rw [resolve, walk_append (resolve_of_passable hdir) hdir.get_normal, walk, if_neg hname.1,
    if_neg hname.2, hlink]
  simp [hfollow]

/-- A walk does not depend on what is in a file. -/
theorem walk_write (file : FilePath) (content : Bytes) {after before : FilePath → Option FilePath}
    (hfollow : ∀ target, after target = before target) (current path : FilePath) :
    (tree.write file content).walk after current path = tree.walk before current path := by
  induction path generalizing current with
  | nil => rfl
  | cons name path ih =>
      have hdir : ∀ reached, (tree.write file content).get reached = some .dir ↔
          tree.get reached = some .dir := by
        intro reached
        rw [get_write]
        split
        · cases hnode : tree.get reached <;> simp
        · rfl
      rw [walk, walk, ih, ih, ih, get_write]
      split
      · rfl
      · split
        · rfl
        · cases hnode : tree.get (current ++ [name]) with
          | none => simp
          | some node =>
              by_cases hfile : current ++ [name] = file
              · rw [if_pos hfile]
                cases node with
                | dir => rfl
                | file old => rfl
                | link target => simp [Node.rewrite, hfollow, hdir, ih]
              · rw [if_neg hfile]
                cases node with
                | dir => rfl
                | file old => rfl
                | link target => simp [hfollow, hdir, ih]

/-- What a path leads to does not depend on what is in a file. -/
@[simp] theorem resolve_write (file : FilePath) (content : Bytes) (path : FilePath) :
    (tree.write file content).resolve path = tree.resolve path := by
  have hfollow : ∀ limit target, (tree.write file content).follow limit target =
      tree.follow limit target := by
    intro limit
    induction limit with
    | zero => exact fun _ => rfl
    | succ limit ih => exact fun target => walk_write file content ih [] target
  exact walk_write file content (hfollow 40) [] path

/-- What a directory lists does not depend on what is in a file. -/
theorem names_write (file : FilePath) (content : Bytes) (dir : FilePath) :
    (tree.write file content).names dir = tree.names dir := by
  simp [names, write, List.map_map, Function.comp_def]

/-- What a path locates does not depend on what is in a file. -/
theorem locate_write (file : FilePath) (content : Bytes) (path : FilePath) :
    (tree.write file content).locate path = tree.locate path := by
  have hdir : ∀ dir, (tree.write file content).get dir = some .dir ↔ tree.get dir = some .dir := by
    intro dir
    rw [get_write]
    split
    · cases hnode : tree.get dir with
      | none => simp
      | some node => cases node <;> simp [Node.rewrite]
    · rfl
  have hnone : ∀ path, (tree.write file content).get path = none ↔ tree.get path = none := by
    intro path
    rw [get_write]
    split <;> simp
  have hslot : (tree.write file content).slot path = tree.slot path := by
    simp only [slot, resolve_write, hdir]
  simp only [locate, hslot, resolve_write, hnone]

/-- The tree after a file was opened for writing, and the file; nothing if it cannot be opened. -/
def opened (tree : FileTree) (path : FilePath) : Option (FileTree × FilePath) :=
  match tree.resolve path with
  | some file =>
      match tree.get file with
      | some (.file _) => some (tree.write file [], file)
      | _ => none
  | none =>
      match tree.slot path with
      | none => none
      | some (dir, name) => (tree.create dir name (.file [])).map fun made => (made, dir ++ [name])

/-- A walk that succeeds still does with more nodes in the tree. -/
theorem walk_of_more {more : FileTree} {before after : FilePath → Option FilePath}
    (hmore : ∀ path node, tree.get path = some node → more.get path = some node)
    (hfollow : ∀ target reached, before target = some reached → after target = some reached)
    {current path reached : FilePath} (h : tree.walk before current path = some reached) :
    more.walk after current path = some reached := by
  induction path generalizing current with
  | nil => exact h
  | cons name path ih =>
      rw [walk]
      rcases walk_cons_cases h with ⟨hstays, h⟩ | ⟨hstays, hup, h⟩ | ⟨hname, hcases⟩
      · rw [if_pos hstays, ih h]
      · rw [if_neg hstays, if_pos hup, ih h]
      · rw [if_neg hname.1, if_neg hname.2]
        rcases hcases with ⟨hnode, h⟩ | ⟨content, hnode, rfl, rfl⟩ |
          ⟨target, middle, hnode, htarget, hcases⟩
        · rw [hmore _ _ hnode]
          exact ih h
        · rw [hmore _ _ hnode]
          simp
        · rw [hmore _ _ hnode]
          simp only [hfollow _ _ htarget]
          rcases hcases with ⟨rfl, rfl⟩ | ⟨hpath, hmiddle, h⟩
          · simp
          · rw [if_neg hpath, if_pos (hmore _ _ hmiddle), ih h]

/-- A path that leads somewhere leads there with more nodes in the tree. -/
theorem resolve_of_more {more : FileTree}
    (hmore : ∀ path node, tree.get path = some node → more.get path = some node)
    {path reached : FilePath} (h : tree.resolve path = some reached) :
    more.resolve path = some reached := by
  have hfollow : ∀ limit target reached, tree.follow limit target = some reached →
      more.follow limit target = some reached := by
    intro limit
    induction limit with
    | zero => simp [follow]
    | succ limit ih => exact fun target reached htarget => walk_of_more hmore ih htarget
  exact walk_of_more hmore (hfollow 40) h

/-- A file that was opened for writing is where its path leads, empty; nothing else changed. -/
theorem opened_eq_some {path file : FilePath} {made : FileTree}
    (h : tree.opened path = some (made, file)) :
    made.resolve path = some file ∧
      ∀ other, made.get other = if other = file then some (.file []) else tree.get other := by
  rw [opened] at h
  cases hresolve : tree.resolve path with
  | some reached =>
      simp only [hresolve] at h
      split at h
      · next content hfile =>
          simp only [Option.some.injEq, Prod.mk.injEq] at h
          obtain ⟨rfl, rfl⟩ := h
          refine ⟨by rw [resolve_write, hresolve], fun other => ?_⟩
          rw [get_write]
          split
          · next heq =>
              rw [heq, hfile]
              rfl
          · rfl
      · simp at h
  | none =>
      simp only [hresolve] at h
      split at h
      · simp at h
      · next dir name hslot =>
          obtain ⟨created, hcreate, heq⟩ := Option.map_eq_some_iff.mp h
          simp only [Prod.mk.injEq] at heq
          obtain ⟨rfl, rfl⟩ := heq
          obtain ⟨hpath, hname, hdir, hnode⟩ := slot_eq_some hslot
          have hget := get_create hcreate
          have hnew := (create_eq_some hcreate).2.1
          refine ⟨?_, hget⟩
          have hmore : ∀ path node, tree.get path = some node → created.get path = some node := by
            intro other node hother
            rw [hget, if_neg ?_, hother]
            rintro rfl
            rw [hnew] at hother
            simp at hother
          rw [hpath, resolve, walk_append (resolve_of_more hmore hdir) (hmore _ _ hnode), walk,
            if_neg hname.1, if_neg hname.2, hget, if_pos rfl]
          simp

/-- A name in a plain directory that is no link is opened where it is. -/
theorem opened_of_plain {dir file : FilePath} {name : Name} {made : FileTree}
    (hplain : Plain (dir ++ [name])) (hdir : tree.get dir = some .dir)
    (hlink : ∀ target, tree.get (dir ++ [name]) ≠ some (.link target))
    (h : tree.opened (dir ++ [name]) = some (made, file)) : file = dir ++ [name] := by
  have hname : Proper name := hplain name (by simp)
  have hresolveDir : tree.resolve dir = some dir :=
    resolve_of_get (fun other hother => hplain other (by simp [hother])) hdir (by simp)
  rw [opened] at h
  cases hnode : tree.get (dir ++ [name]) with
  | some node =>
      have hresolve : tree.resolve (dir ++ [name]) = some (dir ++ [name]) :=
        resolve_of_get hplain hnode fun target heq => hlink target (hnode.trans (by rw [heq]))
      simp only [hresolve] at h
      split at h
      · simp only [Option.some.injEq, Prod.mk.injEq] at h
        exact h.2.symm
      · simp at h
  | none =>
      have hresolve : tree.resolve (dir ++ [name]) = none := by
        rw [resolve, walk_append hresolveDir hdir, walk, if_neg hname.1, if_neg hname.2, hnode]
      simp only [hresolve, slot_of_plain hplain hdir] at h
      obtain ⟨created, -, heq⟩ := Option.map_eq_some_iff.mp h
      exact (Prod.mk.inj heq).2.symm

/-- What a path names, a link at its end not followed, lies where the path leads lexically. -/
theorem locate_eq_normal (hlinks : tree.LinksAvoidDirs) {path found : FilePath}
    (h : tree.locate path = some found) : found = normal [] path ∧ tree.get found ≠ none := by
  rw [locate] at h
  cases hslot : tree.slot path with
  | some slot =>
      obtain ⟨dir, name⟩ := slot
      simp only [hslot] at h
      by_cases hnone : tree.get (dir ++ [name]) = none
      · simp [hnone] at h
      · rw [if_neg hnone, Option.some.injEq] at h
        rw [← h, (slot_normal hlinks hslot).2.2]
        exact ⟨rfl, hnone⟩
  | none =>
      simp only [hslot] at h
      suffices hpass : tree.Passable path by
        rw [resolve_of_passable hpass, Option.some.injEq] at h
        rw [← h]
        exact ⟨rfl, by simp [hpass.get_normal]⟩
      rcases List.eq_nil_or_concat path with rfl | ⟨dir, name, rfl⟩
      · exact passable_nil tree
      rw [List.concat_eq_append] at h hslot ⊢
      have hdir := passable_of_resolve_snoc hlinks h
      by_contra hnot
      -- a name below a directory has a slot
      rw [slot, List.getLast?_concat] at hslot
      simp [hdir.proper_of_not hnot, resolve_of_passable hdir, hdir.get_normal] at hslot

/-- A path that names a directory goes through directories. -/
theorem passable_of_locate (hlinks : tree.LinksAvoidDirs) {path found : FilePath}
    (h : tree.locate path = some found) (hdir : tree.get found = some .dir) :
    tree.Passable path := by
  have hfound := (locate_eq_normal hlinks h).1
  rw [locate] at h
  cases hslot : tree.slot path with
  | some slot =>
      obtain ⟨dir, name⟩ := slot
      have hpath := (slot_eq_some hslot).1
      have hfront := (slot_normal hlinks hslot).1
      rw [hpath] at hfound ⊢
      exact passable_snoc.2 ⟨hfront, hfound ▸ hdir⟩
  | none =>
      simp only [hslot] at h
      exact (resolve_dir_iff hlinks).1 (by rw [h, Option.bind_some, hdir])

/-- A path that names nothing leads nowhere. -/
theorem resolve_of_locate_none (hlinks : tree.LinksAvoidDirs) {path : FilePath}
    (h : tree.locate path = none) : tree.resolve path = none := by
  rw [locate] at h
  cases hslot : tree.slot path with
  | none => simpa only [hslot] using h
  | some slot =>
      obtain ⟨dir, name⟩ := slot
      obtain ⟨hpath, hname, -, -⟩ := slot_eq_some hslot
      obtain ⟨hfront, -, hnormal⟩ := slot_normal hlinks hslot
      simp only [hslot] at h
      have hnone : tree.get (dir ++ [name]) = none := by
        by_contra hsome
        simp [hsome] at h
      have hdir : dir = normal [] path.dropLast := by
        rw [hpath, normal_append, normal_cons, normal_nil, enter_of_proper hname] at hnormal
        exact (List.append_inj' hnormal rfl).1.symm
      rw [hpath, resolve, walk_append (resolve_of_passable hfront) hfront.get_normal, walk,
        if_neg hname.1, if_neg hname.2, ← hdir, hnone]

end FileTree

section Calls

variable {ε : Type} {world : World}

/-- Opening a file for writing. -/
theorem run_openOut_eq (path : FilePath) :
    (openOut path : EStateM ε World (Option FilePath)).run world =
      match world.tree.opened path with
      | none => .ok none { world with log := world.log ++ [path] }
      | some (tree, file) => .ok (some file) { tree := tree, log := world.log ++ [path] } := by
  simp only [openOut, EStateM.run_bind, run_record, EStateM.run_get, FileTree.opened]
  cases world.tree.resolve path with
  | some file =>
      cases hnode : world.tree.get file with
      | none => simp [hnode]
      | some node => cases node <;> simp [hnode]
  | none =>
      cases hslot : world.tree.slot path with
      | none => simp
      | some slot =>
          obtain ⟨dir, name⟩ := slot
          cases hcreate : world.tree.create dir name (.file []) <;> simp [hcreate]

variable [FileFault ε]

/-- Creating a node behind a passable path, under a fresh name. -/
theorem run_createNode_passable {dir : FilePath} {name : Name} (node : Node)
    (hdir : world.tree.Passable dir) (hname : ValidName name)
    (hnew : world.tree.get (normal [] dir ++ [name]) = none) :
    ∃ tree, world.tree.create (normal [] dir) name node = some tree ∧
      (createNode (dir ++ [name]) node : EStateM ε World Unit).run world =
        .ok () { tree := tree, log := world.log ++ [dir ++ [name]] } := by
  obtain ⟨tree, htree⟩ := FileTree.create_isSome node hdir.get_normal hnew hname
  refine ⟨tree, htree, ?_⟩
  have hslot : world.tree.slot (dir ++ [name]) = some (normal [] dir, name) := by
    simp [FileTree.slot, hname.1, FileTree.resolve_of_passable hdir, hdir.get_normal]
  simp [createNode, hslot, htree]

/-- Going along an enterable path from a directory returns. -/
theorem run_createMissing_enterable {done rest : FilePath} (made : Bool)
    (hlinks : world.tree.LinksToFiles) (hdone : world.tree.Passable done)
    (hfree : world.tree.Enterable (done ++ rest)) :
    ∃ last after, (createMissing done rest made : EStateM ε World Bool).run world =
      .ok last after := by
  induction rest generalizing done made world with
  | nil => exact ⟨made, world, rfl⟩
  | cons name rest ih =>
      rw [show done ++ name :: rest = done ++ [name] ++ rest by simp] at hfree
      rw [run_createMissing_cons]
      by_cases hdir : world.tree.Passable (done ++ [name])
      · rw [if_pos ((FileTree.resolve_dir_iff hlinks.avoidDirs).2 hdir)]
        exact ih false hlinks hdir hfree
      have hproper := hdone.proper_of_not hdir
      have hnormal : normal [] (done ++ [name]) = normal [] done ++ [name] := by
        rw [normal_append, normal_cons, normal_nil, enter_of_proper hproper]
      have hnone : world.tree.get (normal [] done ++ [name]) = none := by
        rcases hfree.stages _ (List.prefix_append _ _) with hnone | hnode
        · rwa [hnormal] at hnone
        · exact absurd (FileTree.passable_snoc.2 ⟨hdone, hnode⟩) hdir
      have hresolve := FileTree.resolve_snoc_missing hlinks hproper hnone
      obtain ⟨tree, htree, hrun⟩ := run_createNode_passable (ε := ε) .dir hdone
        (hfree.names name (by simp) hproper) hnone
      rw [if_neg fun h => hdir ((FileTree.resolve_dir_iff hlinks.avoidDirs).1 h), hresolve]
      simp only [Option.isSome_none, Bool.false_eq_true, if_false, EStateM.run_bind, hrun]
      have hgrows : FileTree.Grows (fun path node => node = .dir ∧ path = normal [] done ++ [name])
          world.tree tree := FileTree.grows_of_create htree ⟨rfl, rfl⟩
      have hmade : tree.get (normal [] (done ++ [name])) = some .dir := by
        rw [FileTree.get_create htree, if_pos hnormal]
      refine ih true (hlinks.of_grows hgrows (by simp)) (FileTree.passable_snoc.2
        ⟨hdone.mono fun path hpath => hgrows.get_of_some hpath, hmade⟩)
        ⟨fun stage hstage => ?_, hfree.names⟩
      rcases hgrows.get (normal [] stage) with heq | ⟨-, node, hnode, rfl, -⟩
      · rw [heq]
        exact hfree.stages stage hstage
      · exact Or.inr hnode

/-- Going along a path in two parts. -/
theorem createMissing_append (done front rest : FilePath) (made : Bool) :
    (createMissing done (front ++ rest) made : EStateM ε World Bool) =
      createMissing done front made >>= createMissing (done ++ front) rest := by
  induction front generalizing done made with
  | nil => simp [createMissing]
  | cons name front ih =>
      have hassoc : done ++ name :: front = done ++ [name] ++ front := by simp
      simp only [List.cons_append, createMissing, bind_assoc]
      refine bind_congr fun dir => ?_
      split
      · rw [ih, hassoc]
      · rw [bind_assoc]
        refine bind_congr fun there => ?_
        split
        · rfl
        · rw [bind_assoc]
          refine bind_congr fun _ => ?_
          rw [ih, hassoc]

/-- Creating a missing directory on a path that does not lead upwards and meets nothing but
directories: the last component is new exactly if it is a name, and all names can be stored. -/
theorem run_createMissing_true_iff {front : FilePath} {name : Name} (made : Bool)
    (hlinks : world.tree.LinksToFiles) (hup : dotDot ∉ front ++ [name])
    (hfree : ∀ stage, stage <+: front ++ [name] →
      world.tree.get (normal [] stage) = none ∨ world.tree.get (normal [] stage) = some .dir)
    (hmissing : world.tree.get (normal [] (front ++ [name])) = none) :
    (∃ after, (createMissing [] (front ++ [name]) made : EStateM ε World Bool).run world =
        .ok true after) ↔
      (∀ other ∈ front ++ [name], Proper other → ValidName other) ∧ Proper name := by
  have hwent := wentAlong_createMissing (ε := ε) front made hlinks
    (FileTree.passable_nil _)
  constructor
  · rintro ⟨after, hafter⟩
    have hwhole := wentAlong_createMissing (ε := ε) (front ++ [name]) made hlinks
      (FileTree.passable_nil _)
    rw [hafter] at hwhole
    refine ⟨(hwhole.passable true after rfl).enterable.names, ?_⟩
    rw [createMissing_append] at hafter
    obtain ⟨flag, middle, hfront, hlast⟩ := EStateM.run_bind_eq_ok hafter
    rw [hfront] at hwent
    have hpass := hwent.passable flag middle rfl
    have hlinks' : middle.tree.LinksToFiles := hwent.links
    by_contra hname
    have hdir : middle.tree.Passable ([] ++ front ++ [name]) := by
      by_contra hnot
      exact hname (hpass.proper_of_not hnot)
    rw [run_createMissing_cons,
      if_pos ((FileTree.resolve_dir_iff hlinks'.avoidDirs).2 hdir)] at hlast
    simp [createMissing] at hlast
  · rintro ⟨hnames, hname⟩
    have henter : world.tree.Enterable ([] ++ front) :=
      ⟨fun stage hstage => hfree stage (hstage.trans (List.prefix_append _ _)),
        fun other hother => hnames other (List.mem_append_left _ hother)⟩
    obtain ⟨flag, middle, hfront⟩ := run_createMissing_enterable (ε := ε) made hlinks
      (FileTree.passable_nil _) henter
    rw [hfront] at hwent
    have hpass := hwent.passable flag middle rfl
    have hlinks' : middle.tree.LinksToFiles := hwent.links
    -- the directories above the last name are shorter than its path, so it is still missing
    have hnone : middle.tree.get (normal [] ([] ++ front) ++ [name]) = none := by
      rw [normal_append, normal_cons, normal_nil, enter_of_proper hname] at hmissing
      rw [List.nil_append]
      rcases hwent.grows.get (normal [] front ++ [name]) with heq |
        ⟨-, node, -, -, stage, hstage, heq⟩
      · exact heq.trans hmissing
      · have hlength := (normal_prefix_normal (fun hmem => hup (List.mem_append_left _ hmem))
          hstage []).length_le
        rw [List.nil_append] at heq
        rw [← heq, List.length_append, List.length_singleton] at hlength
        omega
    obtain ⟨tree, -, hcreate⟩ := run_createNode_passable (ε := ε) .dir hpass
      (hnames name (by simp) hname) hnone
    have hnot : ¬ middle.tree.Passable ([] ++ front ++ [name]) := fun h => by
      have hdir := h.get_normal
      rw [normal_append, normal_cons, normal_nil, enter_of_proper hname, hnone] at hdir
      simp at hdir
    refine ⟨{ tree := tree, log := middle.log ++ [[] ++ front ++ [name]] }, ?_⟩
    rw [createMissing_append, EStateM.run_bind, hfront]
    simp only [run_createMissing_cons]
    rw [if_neg fun h => hnot ((FileTree.resolve_dir_iff hlinks'.avoidDirs).1 h),
      FileTree.resolve_snoc_missing hlinks' hname hnone]
    simp only [Option.isSome_none, Bool.false_eq_true, if_false, EStateM.run_bind, hcreate]
    rfl

/-- Making sure that a directory is there, on a path that does not lead upwards and meets nothing
but directories, succeeds if the names can be stored and the directory is there or ends in a name. -/
theorem run_ensureDirectory_true_iff {path : FilePath} (hlinks : world.tree.LinksToFiles)
    (hup : dotDot ∉ path) (hfree : ∀ stage, stage <+: path →
      world.tree.get (normal [] stage) = none ∨ world.tree.get (normal [] stage) = some .dir) :
    (∃ after, (ensureDirectory path : EStateM ε World Bool).run world = .ok true after) ↔
      (∀ name ∈ path, Proper name → ValidName name) ∧
        (world.tree.get (normal [] path) = some .dir ∨ EndsInName path) := by
  cases hresolve : world.tree.resolve path with
  | some reached =>
      have hpass : world.tree.Passable path := by
        rcases FileTree.resolve_cases hlinks hresolve with ⟨hpass, -⟩ |
          ⟨dir, name, content, -, -, -, hfile, rfl | hlink⟩
        · exact hpass
        · rcases hfree path (List.prefix_refl _) with hnode | hnode <;> simp [hnode] at hfile
        · rcases hfree path (List.prefix_refl _) with hnode | hnode <;> simp [hnode] at hlink
      have hrun : (ensureDirectory path : EStateM ε World Bool).run world = .ok true world := by
        rw [ensureDirectory, EStateM.run_bind, run_present, hresolve]
        simp
      exact iff_of_true ⟨world, hrun⟩ ⟨hpass.enterable.names, Or.inl hpass.get_normal⟩
  | none =>
      have hmissing : world.tree.get (normal [] path) = none := by
        rcases hfree path (List.prefix_refl _) with hnone | hdir
        · exact hnone
        · rw [FileTree.resolve_of_passable ((FileTree.passable_iff_get hup).2 hdir)] at hresolve
          simp at hresolve
      have hrun : (ensureDirectory path : EStateM ε World Bool).run world =
          (createMissing [] (path.filter (· ≠ [])) false).run world := by
        rw [ensureDirectory, EStateM.run_bind, run_present, hresolve]
        simp [createDirectories]
      have hnames : (∀ name ∈ path, Proper name → ValidName name) ↔
          ∀ name ∈ path.filter (· ≠ []), Proper name → ValidName name := by
        refine ⟨fun h name hname => h name (List.mem_of_mem_filter hname),
          fun h name hname hproper => h name (List.mem_filter.2 ⟨hname, ?_⟩) hproper⟩
        simpa using fun hnil => hproper.1 (Or.inl hnil)
      have hup' : dotDot ∉ path.filter (· ≠ []) := fun hmem => hup (List.mem_of_mem_filter hmem)
      have hfree' : ∀ stage, stage <+: path.filter (· ≠ []) →
          world.tree.get (normal [] stage) = none ∨
            world.tree.get (normal [] stage) = some .dir := by
        intro stage hstage
        obtain ⟨front, hfront, heq⟩ := FileTree.exists_prefix_of_filter hstage
        rw [heq]
        exact hfree front hfront
      have hmissing' : world.tree.get (normal [] (path.filter (· ≠ []))) = none := by
        rw [normal_filter, hmissing]
      rw [hrun, hmissing, hnames, endsInName_iff]
      simp only [reduceCtorEq, false_or]
      revert hup' hfree' hmissing'
      rcases List.eq_nil_or_concat (path.filter (· ≠ [])) with hnil | ⟨front, name, hlast⟩
      · rw [hnil]
        simp [createMissing]
      · rw [hlast, List.concat_eq_append]
        intro hup' hfree' hmissing'
        rw [run_createMissing_true_iff false hlinks hup' hfree' hmissing']
        simp

/-- Making sure that an enterable directory is there: the path is passable afterwards, and only the
missing stages are new. -/
theorem run_ensureDirectory_enterable {path : FilePath} (hlinks : world.tree.LinksToFiles)
    (hfree : world.tree.Enterable path) :
    ∃ made after, (ensureDirectory path : EStateM ε World Bool).run world = .ok made after ∧
      after.tree.LinksToFiles ∧ after.tree.Passable path ∧
      FileTree.Grows (fun other node => node = .dir ∧ ∃ stage, stage <+: path ∧
        other = normal [] stage) world.tree after.tree := by
  rcases wentAlong_ensureDirectory (ε := ε) path hlinks with
    ⟨hresolve, hrun⟩ | ⟨hresolve, hwent⟩
  · obtain ⟨reached, hreached⟩ := Option.isSome_iff_exists.1 hresolve
    refine ⟨true, world, hrun, hlinks, ?_, .refl _⟩
    rcases FileTree.resolve_cases hlinks hreached with ⟨hpass, -⟩ |
      ⟨dir, name, content, -, -, -, hfile, rfl | hlink⟩
    · exact hpass
    · rcases hfree.stages path (List.prefix_refl _) with hnode | hnode <;> simp [hnode] at hfile
    · rcases hfree.stages path (List.prefix_refl _) with hnode | hnode <;> simp [hnode] at hlink
  · obtain ⟨made, after, hrun⟩ := run_createMissing_enterable (ε := ε) false hlinks
      (FileTree.passable_nil _) (show world.tree.Enterable ([] ++ path.filter (· ≠ [])) from
        hfree.filter)
    have hensure : (ensureDirectory path : EStateM ε World Bool).run world = .ok made after := by
      rw [ensureDirectory, EStateM.run_bind, run_present, hresolve]
      simpa [createDirectories] using hrun
    rw [hensure] at hwent
    refine ⟨made, after, hensure, hwent.links, ?_, hwent.grows.imp ?_⟩
    · exact FileTree.passable_filter.1 (by simpa using hwent.passable made after rfl)
    · rintro other node ⟨rfl, stage, hstage, rfl⟩
      obtain ⟨front, hfront, heq⟩ := FileTree.exists_prefix_of_filter hstage
      exact ⟨rfl, front, hfront, by rw [List.nil_append, heq]⟩

end Calls

end FileSystem
