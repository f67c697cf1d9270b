import AnarchNet.Blockstore.Faults
import AnarchNet.Blockstore.Removal
import AnarchNet.FFStore.Stocked

/-!
# Empty directories of keys in the block store

As in the flat-file store, `kv_get` is defined as long as no call leaves the directory of a short
key empty. `kvGet_defined` says so for both stores.
-/

namespace AnarchNet

open FileSystem EStateM

namespace KvBlockstore

variable {store : KvBlockstore}

/-- The mid directories of the keys shorter than 128 bytes. -/
def shortDirs (store : KvBlockstore) : Set FilePath :=
  {dir | ∃ key : Bytes, key.length < 128 ∧ dir = store.keyDir key}

/-- A put leaves a directory empty: the directory was not there, and the call that is to create the
first entry in it fails, or there is no such call. -/
def Strands (store : KvBlockstore) (key value : Bytes) (state : FaultyWorld) (dir : FilePath) :
    Prop :=
  validateKey store.sha key ≠ store.idOf value ∧ state.world.tree.get dir = none ∧
    (StopsBehind Exception (store.midHome key) state dir ∨
      dir = normal [] (store.midHome key) ∧ ∃ flag made,
        (ensureDirectoryFaulty (store.midHome key) : FaultyStorage Bool).run state = .ok flag made ∧
        (flag = true → ∃ last,
          (openOutFaulty (store.entryAt key value) : FaultyStorage (Option FilePath)).run made =
            .ok none last))

/-- A removal leaves a directory empty: there is no block of the key, no entry of its directory has
entries itself, and its directory is the only entry, or its path ends in a dot and leads to the
directory. -/
def Strips (store : KvBlockstore) (key : Bytes) (tree : FileTree) (dir : FilePath) : Prop :=
  tree.locate (store.uniqueAt key) = none ∧
    ((0 : UInt8) ∈ validateKey store.sha key → tree.names (normal [] (store.midAt key)) = []) ∧
    (∀ name, tree.names (normal [] (store.midAt key) ++ [name]) = []) ∧
    ((EndsInName (store.midAt key) ∧ ∃ name, normal [] (store.midAt key) = dir ++ [name] ∧
        ∀ other, tree.get (dir ++ [other]) ≠ none → other = name) ∨
      ¬ EndsInName (store.midAt key) ∧ normal [] (store.midAt key) = dir)

/-- The path of the key does not lead upwards, and the call does not leave the directory of a short
key empty. -/
def Spares (store : KvBlockstore) (world : World) : KvCall → Prop
  | .put key value faults => dotDot ∉ store.midAt key ∧
      ∀ dir ∈ store.shortDirs, ¬ Strands store key value ⟨world, faults⟩ dir
  | .remove key => dotDot ∉ store.midAt key ∧
      ∀ dir ∈ store.shortDirs, ¬ Strips store key world.tree dir

/-- The links lead to files, and none of these is in the unique or in the mid directory. -/
structure Whole (store : KvBlockstore) (tree : FileTree) : Prop where
  links : tree.LinksToFiles
  notUnique : ∀ path target, tree.get path = some (.link target) → ¬ store.uniqueDir <+: target
  notMid : ∀ path target, tree.get path = some (.link target) → ¬ store.midDir <+: target

/-- No directory of a short key is empty. -/
structure Stocked (store : KvBlockstore) (tree : FileTree) : Prop extends Whole store tree where
  stocked : ∀ dir ∈ store.shortDirs, ¬ tree.Bare dir

/-- Calls that keep what is there. -/
theorem Whole.of_kept {before after : FileTree} (h : Whole store before)
    (hkept : FileTree.Kept before after) : Whole store after :=
  ⟨hkept.linksToFiles h.links,
    fun path target hlink => h.notUnique path target ((hkept.links path target).1 hlink),
    fun path target hlink => h.notMid path target ((hkept.links path target).1 hlink)⟩

/-- Removed nodes in the unique or in the mid directory. -/
theorem Whole.of_shrinks {before after : FileTree} (h : Whole store before) {spot : FilePath}
    (hspot : store.uniqueDir <+: spot ∨ store.midDir <+: spot)
    (hshrinks : FileTree.Shrinks spot before after) : Whole store after := by
  have hold : ∀ path target, after.get path = some (.link target) →
      before.get path = some (.link target) := fun path target => hshrinks.get_of_some
  refine ⟨fun path target hlink => ?_,
    fun path target hlink => h.notUnique path target (hold path target hlink),
    fun path target hlink => h.notMid path target (hold path target hlink)⟩
  obtain ⟨hplain, content, hfile⟩ := h.links path target (hold path target hlink)
  refine ⟨hplain, content, ?_⟩
  rw [hshrinks.get_other, hfile]
  intro hpre
  rcases hspot with hspot | hspot
  · exact h.notUnique path target (hold path target hlink) (hspot.trans hpre)
  · exact h.notMid path target (hold path target hlink) (hspot.trans hpre)

/-- A directory of a short key lies in the mid directory. -/
theorem midDir_prefix_of_mem_shortDirs {dir : FilePath} (h : dir ∈ store.shortDirs) :
    store.midDir <+: dir := by
  obtain ⟨key, -, rfl⟩ := h
  exact List.prefix_append _ _

/-- Nothing in the mid directory lies above something in the unique directory. -/
theorem mid_not_above_unique (store : KvBlockstore) (rest path : FilePath) :
    ¬ store.midDir ++ path <+: store.uniqueDir ++ rest := by
  intro hpre
  have hmid := (List.prefix_append store.midDir path).trans hpre
  have hlength : store.midDir.length = store.uniqueDir.length := by
    rw [store.uniqueDir_eq, midDir, List.length_append, List.length_append]
    rfl
  have heq := (List.prefix_of_prefix_length_le hmid (List.prefix_append store.uniqueDir rest)
    hlength.le).eq_of_length hlength
  exact store.not_unique_of_mid (List.prefix_refl _) (heq ▸ List.prefix_refl _)

section Puts

variable {state : FaultyWorld} {key value : Bytes} {dir : FilePath}

/-- A directory without entries that was not there before is a new one. -/
theorem get_of_bare {before after : FileTree} (hkept : FileTree.Kept before after)
    (hbare : after.Bare dir) (hold : ¬ before.Bare dir) : before.get dir ≠ some .dir := fun hdir =>
  hold (hbare.of_more hdir fun _ => hkept.get_ne_none)

/-- New directories along a path keep what is there. -/
theorem kept_of_dirsAlong {path : FilePath} {before after : FileTree}
    (h : FileTree.DirsAlong path before after) : FileTree.Kept before after := by
  refine ⟨fun other hother => h.get_of_some hother,
    fun other content hother => ⟨content, h.get_of_some hother⟩, fun other target => ?_⟩
  rcases FileTree.Grows.get h other with heq | ⟨hnone, node, hnode, rfl, -⟩
  · rw [heq]
  · rw [hnone, hnode]
    simp

/-- A file that was opened and written, and the directories made before. -/
theorem kept_of_opened_write {path file : FilePath} {along : FilePath} {before made after : FileTree}
    (hdirs : FileTree.DirsAlong along before made) (hopened : made.opened path = some (after, file))
    (content : Bytes) : FileTree.Kept before (after.write file content) :=
  (kept_of_dirsAlong hdirs).trans
    ((FileTree.kept_of_opened hopened).trans (FileTree.kept_write after file content))

/-- Storing a block makes no directory in the mid directory. -/
theorem kept_storeBlockFaulty (store : KvBlockstore) (value : Bytes)
    (hlinks : state.world.tree.LinksToFiles) :
    FileTree.Kept state.world.tree
        ((store.storeBlockFaulty value).run state).state.world.tree ∧
      ∀ rest, ((store.storeBlockFaulty value).run state).state.world.tree.get (store.midDir ++ rest) =
          some .dir → state.world.tree.get (store.midDir ++ rest) = some .dir := by
  have hhex := store.hexId_idOf value
  have hplain := (validPath_append.2 ⟨store.uniqueDir_valid, fun name hname =>
    hhex.validPath_shard name (List.mem_of_mem_dropLast hname)⟩).plain
  have hmid : ∀ {after : FileTree}, FileTree.DirsAlong (store.uniqueDir ++
      components (removeFilename (shardText (store.idOf value)))) state.world.tree after →
      ∀ rest, after.get (store.midDir ++ rest) = some .dir →
        state.world.tree.get (store.midDir ++ rest) = some .dir := by
    intro after hdirs rest hdir
    rw [hhex.components_removeFilename] at hdirs
    rcases hdirs.get hplain (store.midDir ++ rest) with heq | ⟨-, -, hpre⟩
    · rw [← heq, hdir]
    · exact absurd hpre (store.mid_not_above_unique _ _)
  simp only [storeBlockFaulty, run_bind, run_reliable]
  rw [show toHex (store.sha.hash value) = store.idOf value from rfl, run_pathText hhex, withFaults_ok]
  simp only
  cases hopen : (openBlockFaulty store.uniqueDir (shardText (store.idOf value))).run state with
  | error fault after =>
      have hdirs := dirsAlong_openBlockFaulty hlinks fun file other => by rw [hopen]; simp
      rw [hopen] at hdirs
      exact ⟨kept_of_dirsAlong hdirs, hmid hdirs⟩
  | ok file after =>
      cases file with
      | none =>
          have hdirs := dirsAlong_openBlockFaulty hlinks fun file other => by rw [hopen]; simp
          rw [hopen] at hdirs
          exact ⟨kept_of_dirsAlong hdirs, hmid hdirs⟩
      | some file =>
          obtain ⟨made, hdirs, hopened⟩ := run_openBlockFaulty_some hlinks hopen
          exact ⟨kept_of_opened_write hdirs hopened _, fun rest hdir =>
            hmid hdirs rest (FileTree.dir_of_opened_write hopened hdir)⟩

/-- Putting in the mid directory keeps what is there. -/
theorem kept_putMidFaulty (store : KvBlockstore) (key value : Bytes)
    (hlinks : state.world.tree.LinksToFiles) :
    FileTree.Kept state.world.tree ((store.putMidFaulty (validateKey store.sha key)
      (store.idOf value) value).run state).state.world.tree := by
  have hdirs := dirsAlong_ensureDirectoryFaulty (ε := Exception) (store.midHome key) hlinks
  simp only [putMidFaulty, run_bind, run_reliable, run_pathText_validateKey, withFaults_ok]
  rw [show store.midDir ++ components (removeFilename (shardText (validateKey store.sha key) ++
    [slash, 120])) = store.midHome key from rfl]
  cases hmade : (ensureDirectoryFaulty (store.midHome key) : FaultyStorage Bool).run state with
  | error fault made =>
      rw [hmade] at hdirs
      exact kept_of_dirsAlong hdirs
  | ok flag made =>
      rw [hmade] at hdirs
      cases flag with
      | false => exact kept_of_dirsAlong hdirs
      | true =>
          simp only [if_true, run_bind]
          rcases run_openOutFaulty_cases (ε := Exception) (store.midDir ++ components
            (shardText (validateKey store.sha key) ++ slash :: store.idOf value)) made with
            ⟨after, hrun, hsame⟩ | ⟨file, after, hrun, hopened⟩
          · rw [hrun]
            exact (kept_of_dirsAlong (hsame ▸ hdirs : FileTree.DirsAlong _ _ after.world.tree))
          · rw [hrun]
            exact kept_of_opened_write hdirs hopened _

/-- An entry that was opened is there, in the directory of its key. -/
theorem bare_of_entry {before after : FileTree} {file : FilePath} {content : Bytes}
    (hlinks : before.LinksToFiles)
    (hopened : before.opened (store.entryAt key value) = some (after, file))
    (hbare : (after.write file content).Bare dir) :
    before.Bare dir ∧ dir ≠ normal [] (store.midHome key) := by
  have hhex := store.hexId_idOf value
  have hwritten := FileTree.kept_write after file content
  refine ⟨hbare.of_more (FileTree.dir_of_opened_write hopened hbare.1) fun path =>
    ((FileTree.kept_of_opened hopened).trans hwritten).get_ne_none, fun hdir => ?_⟩
  obtain ⟨node, hnode, hnot⟩ := FileTree.not_dir_of_opened hlinks hopened
  obtain ⟨other, hother, hnot⟩ := hwritten.not_dir hnode hnot
  rw [entryAt, entry_path store key (hhex.not_mem (by decide)) (hhex.not_mem (by decide))] at hother
  split at hother
  · rw [normal_midAt, ← hdir, hbare.1, Option.some.injEq] at hother
    exact hnot hother.symm
  · rw [normal_append, normal_cons, normal_nil, enter_of_proper hhex.validName.1, normal_midAt,
      ← hdir, hbare.2] at hother
    simp at hother

/-- When putting in the mid directory leaves a directory without entries, the call that was to
create the first entry in it failed, or there was none. -/
theorem bare_putMidFaulty (hlinks : state.world.tree.LinksToFiles) (hup : dotDot ∉ store.midAt key)
    (hbare : ((store.putMidFaulty (validateKey store.sha key) (store.idOf value) value).run
      state).state.world.tree.Bare dir) (hold : ¬ state.world.tree.Bare dir) :
    StopsBehind Exception (store.midHome key) state dir ∨
      dir = normal [] (store.midHome key) ∧ ∃ flag made,
        (ensureDirectoryFaulty (store.midHome key) : FaultyStorage Bool).run state = .ok flag made ∧
        (flag = true → ∃ last,
          (openOutFaulty (store.entryAt key value) : FaultyStorage (Option FilePath)).run made =
            .ok none last) := by
  have hupHome : dotDot ∉ store.midHome key := fun hmem =>
    hup ((store.midHome_prefix key).subset hmem)
  have hdirs := dirsAlong_ensureDirectoryFaulty (ε := Exception) (store.midHome key) hlinks
  have hmadeBare := fun hbare =>
    @bare_ensureDirectoryFaulty Exception _ state _ dir hlinks hupHome hbare hold
  simp only [putMidFaulty, run_bind, run_reliable, run_pathText_validateKey, withFaults_ok] at hbare
  rw [show store.midDir ++ components (removeFilename (shardText (validateKey store.sha key) ++
      [slash, 120])) = store.midHome key from rfl,
    show store.midDir ++ components (shardText (validateKey store.sha key) ++
      slash :: store.idOf value) = store.entryAt key value from rfl] at hbare
  cases hmade : (ensureDirectoryFaulty (store.midHome key) : FaultyStorage Bool).run state with
  | error fault made =>
      rw [hmade] at hbare hmadeBare
      rcases hmadeBare hbare with ⟨-, flag, after, hok⟩ | hstops
      · simp at hok
      · exact Or.inl hstops
  | ok flag made =>
      rw [hmade] at hbare hmadeBare hdirs
      cases flag with
      | false =>
          rcases hmadeBare hbare with ⟨hdir, -⟩ | hstops
          · exact Or.inr ⟨hdir, false, made, rfl, by simp⟩
          · exact Or.inl hstops
      | true =>
          simp only [if_true, run_bind] at hbare
          rcases run_openOutFaulty_cases (ε := Exception) (store.entryAt key value) made with
            ⟨after, hrun, hsame⟩ | ⟨file, after, hrun, hopened⟩
          · rw [hrun] at hbare
            rw [Result.state_ok, ← hsame] at hmadeBare
            rcases hmadeBare hbare with ⟨hdir, -⟩ | hstops
            · exact Or.inr ⟨hdir, true, made, rfl, fun _ => ⟨after, hrun⟩⟩
            · exact Or.inl hstops
          · rw [hrun] at hbare
            rw [Result.state_ok] at hdirs
            obtain ⟨hold', hne⟩ := bare_of_entry (hdirs.linksToFiles hlinks) hopened hbare
            rcases hmadeBare hold' with ⟨hdir, -⟩ | hstops
            · exact absurd hdir hne
            · exact Or.inl hstops

/-- A put that makes the directory of its key also opens the entry in it. -/
def opensLast (store : KvBlockstore) (key value : Bytes) (state : FaultyWorld) : Bool :=
  match (ensureDirectoryFaulty (store.midHome key) : FaultyStorage Bool).run state with
  | .ok flag made =>
      match (openOutFaulty (store.entryAt key value) : FaultyStorage (Option FilePath)).run made with
      | .ok (some _) _ => flag
      | _ => false
  | .error _ _ => true

/-- A put under a short key leaves no directory of a short key empty when it opens the entry. -/
theorem not_strands_of_short (hshort : key.length < 128)
    (hlast : store.opensLast key value state = true) (hdir : dir ∈ store.shortDirs) :
    ¬ Strands store key value state dir := by
  rintro ⟨-, -, ⟨front, name, flag, made, last, hfront, rfl, -⟩ | ⟨-, flag, made, hmade, hfails⟩⟩
  · -- the directory of a short key is the last one on the path
    obtain ⟨other, -, hother⟩ := hdir
    have hhex := hexId_validateKey store.sha hshort
    have hvalid := hhex.validPath store.midDir_valid
    rw [midHome_eq_keyDir hhex] at hfront
    have hplain : Plain front := fun name hname => (hvalid name (List.mem_of_mem_filter
      (hfront.subset (List.mem_append_left _ hname)))).1
    have hlength := hfront.length_le.trans (List.length_filter_le _ _)
    have hsame := congrArg List.length hother
    rw [normal_of_plain hplain] at hsame
    simp only [keyDir, shard, List.length_append, List.nil_append, List.length_cons,
      List.length_nil] at hlength hsame
    omega
  · simp only [opensLast, hmade] at hlast
    split at hlast
    · next hopen =>
        obtain ⟨last, hnone⟩ := hfails hlast
        rw [hopen] at hnone
        simp at hnone
    · simp at hlast

/-- A put that leaves no directory of a short key empty. -/
theorem Stocked.put (h : Stocked store state.world.tree) (hup : dotDot ∉ store.midAt key)
    (hspares : ∀ dir ∈ store.shortDirs, ¬ Strands store key value state dir) :
    Stocked store ((store.kvPutFaulty key value).run state).state.world.tree := by
  rw [kvPutFaulty]
  by_cases hkey : validateKey store.sha key = toHex (store.sha.hash value)
  · rw [if_pos hkey]
    obtain ⟨hkept, hmid⟩ := store.kept_storeBlockFaulty value h.links
    refine ⟨h.of_kept hkept, fun dir hdir hbare => ?_⟩
    have hold := get_of_bare hkept hbare (h.stocked dir hdir)
    obtain ⟨rest, rfl⟩ := midDir_prefix_of_mem_shortDirs hdir
    exact hold (hmid rest hbare.1)
  · rw [if_neg hkey]
    have hkept := store.kept_putMidFaulty key value h.links
    refine ⟨h.of_kept hkept, fun dir hdir hbare => ?_⟩
    have hold := h.stocked dir hdir
    refine hspares dir hdir ⟨hkey, ?_, bare_putMidFaulty h.links hup hbare hold⟩
    by_contra hthere
    have hnode := get_of_bare hkept hbare hold
    cases hget : state.world.tree.get dir with
    | none => exact hthere hget
    | some node =>
        obtain ⟨other, hother, hnot⟩ := hkept.not_dir hget fun heq => hnode (heq ▸ hget)
        rw [show ((store.putMidFaulty (validateKey store.sha key) (store.idOf value) value).run
          state).state.world.tree.get dir = some .dir from hbare.1, Option.some.injEq] at hother
        exact hnot hother.symm

end Puts

section Removals

variable {world : World} {key : Bytes}

/-- A key whose path does not lead upwards leads into the unique directory and into the mid
directory. -/
theorem prefix_normal_midAt (hup : dotDot ∉ store.midAt key) :
    store.uniqueDir <+: normal [] (store.uniqueAt key) ∧
      store.midDir <+: normal [] (store.midAt key) := by
  have hrest : dotDot ∉ components (shardText (validateKey store.sha key)) := fun hmem =>
    hup (List.mem_append_right _ hmem)
  constructor
  · rw [uniqueAt, normal_append, normal_of_plain store.uniqueDir_valid.plain, List.nil_append]
    exact prefix_normal hrest _
  · rw [midAt, normal_append, normal_of_plain store.midDir_valid.plain, List.nil_append]
    exact prefix_normal hrest _

/-- Removing the directory of a key, once it has no entries. -/
theorem tree_remove_midAt (hlinks : world.tree.LinksAvoidDirs)
    (hpass : world.tree.Passable (store.midAt key)) (hroot : normal [] (store.midAt key) ≠ [])
    (hnames : world.tree.names (normal [] (store.midAt key)) = []) :
    EndsInName (store.midAt key) ∧ ((remove (store.midAt key) : Storage Bool).run world).state.tree =
        world.tree.prune (normal [] (store.midAt key)) ∨
      ¬ EndsInName (store.midAt key) ∧
        ((remove (store.midAt key) : Storage Bool).run world).state.tree = world.tree := by
  have hlocate := FileTree.locate_of_passable_dir hlinks hpass
  by_cases hends : EndsInName (store.midAt key)
  · refine Or.inl ⟨hends, ?_⟩
    rw [(run_remove_true_iff (ε := Exception) hlinks).2 ⟨⟨_, hlocate, hends, hroot, hnames⟩, rfl⟩]
    rfl
  · refine Or.inr ⟨hends, ?_⟩
    simp [remove, hlocate, hends]

/-- What is left when the directory of a key was to be removed: nothing has changed, or some of its
entries are gone and another one is still there, or they are all gone and the directory too, if its
path ends in a name. -/
theorem removeMid_cases (platform : Platform) (hlinks : world.tree.LinksAvoidDirs)
    (hup : dotDot ∉ store.midAt key) (hroot : normal [] (store.midAt key) ≠ []) :
    ((store.removeMid platform key).run world).state.tree = world.tree ∨
      ∃ gone between, Unnamed (normal [] (store.midAt key)) gone world.tree between ∧
        ((((store.removeMid platform key).run world).state.tree = between ∧
            ∃ name, world.tree.get (normal [] (store.midAt key) ++ [name]) ≠ none ∧ name ∉ gone) ∨
          ((0 : UInt8) ∈ validateKey store.sha key →
              world.tree.names (normal [] (store.midAt key)) = []) ∧
            (∀ name, world.tree.names (normal [] (store.midAt key) ++ [name]) = []) ∧
            (EndsInName (store.midAt key) ∧ ((store.removeMid platform key).run world).state.tree =
                between.prune (normal [] (store.midAt key)) ∨
              ¬ EndsInName (store.midAt key) ∧
                ((store.removeMid platform key).run world).state.tree = between)) := by
  by_cases hpass : world.tree.Passable (store.midAt key)
  swap
  · left
    have hnot := mt (FileTree.resolve_dir_iff hlinks).1 hpass
    simp only [removeMid, run_bind, listDirectory, run_record, run_get]
    cases hresolve : world.tree.resolve (store.midAt key) with
    | none => rfl
    | some dir =>
        have hdir : world.tree.get dir ≠ some .dir := by simpa [hresolve] using hnot
        simp [hdir]
  have hmem := mem_order_names platform world.tree (normal [] (store.midAt key))
  rw [removeMid, run_bind, run_listDirectory_midAt platform hpass]
  simp only [run_bind]
  by_cases hzero : (0 : UInt8) ∈ validateKey store.sha key
  · -- every entry is the directory itself again
    cases horder : platform.listing.order (world.tree.names (normal [] (store.midAt key))) with
    | nil =>
        have hnil := platform.listing.perm (world.tree.names (normal [] (store.midAt key)))
        rw [horder, List.nil_perm] at hnil
        refine Or.inr ⟨[], world.tree, fun path => by simp, Or.inr ⟨fun _ => hnil, fun name => ?_, ?_⟩⟩
        · refine FileTree.names_eq_nil ?_
          simp [FileTree.names_eq_nil_iff.1 hnil name]
        · exact @tree_remove_midAt _ { world with log := world.log ++ [store.midAt key] } _
            hlinks hpass hroot hnil
    | cons name rest =>
        left
        have hname : world.tree.get (normal [] (store.midAt key) ++ [name]) ≠ none :=
          (hmem name).1 (horder ▸ List.mem_cons_self)
        have hvalid := FileTree.get_valid hname
        have hnames : world.tree.names (normal [] (store.midAt key)) ≠ [] :=
          List.ne_nil_of_mem (FileTree.mem_names.2 hname)
        have hlocate := FileTree.locate_of_passable_dir hlinks hpass
        simp [removeEntries, entry_path store key hvalid.2.1 hvalid.2.2.1, hzero, remove, hlocate,
          hnames]
  · rw [removeEntries_eq hzero fun name hname => FileTree.get_valid ((hmem name).1 hname)]
    rcases @run_removeNamed_cases Exception _ { world with log := world.log ++ [store.midAt key] } _ _
      hlinks hup hpass ((platform.listing.perm _).nodup_iff.2 (world.tree.names_nodup _))
      fun name hname => (hmem name).1 hname with
      ⟨after, hrun, hunnamed, hlinks', hnames⟩ | ⟨fault, after, gone, hrun, hunnamed, name, hname, hleft⟩
    · have hgone : after.tree.names (normal [] (store.midAt key)) = [] := by
        rw [FileTree.names_eq_nil_iff]
        intro name
        rw [hunnamed]
        split
        · rfl
        · next hnot =>
            by_contra hnode
            exact hnot ⟨name, (hmem name).2 hnode, List.prefix_refl _⟩
      have hpass' : after.tree.Passable (store.midAt key) := by
        rw [FileTree.passable_iff_get hup, hunnamed, if_neg]
        · exact hpass.get_normal
        · rintro ⟨name, -, hpre⟩
          exact absurd (eq_nil_of_append_le hpre) (by simp)
      rw [hrun]
      refine Or.inr ⟨_, after.tree, hunnamed, Or.inr ⟨fun hmem => absurd hmem hzero,
        fun name => ?_, tree_remove_midAt hlinks' hpass' hroot hgone⟩⟩
      by_cases hnode : world.tree.get (normal [] (store.midAt key) ++ [name]) = none
      · exact FileTree.names_eq_nil (by simp [hnode])
      · exact hnames name ((hmem name).2 hnode)
    · rw [hrun]
      exact Or.inr ⟨gone, after.tree, hunnamed, Or.inl ⟨rfl, name, (hmem name).1 hname, hleft⟩⟩

/-- Entries that were removed lie in their directory. -/
theorem shrinks_of_unnamed {spot : FilePath} {names : List Name} {before after : FileTree}
    (h : Unnamed spot names before after) : FileTree.Shrinks spot before after := by
  intro path
  rw [h]
  split
  · next hname =>
      obtain ⟨name, -, hpre⟩ := hname
      exact Or.inr ⟨(List.prefix_append _ _).trans hpre, rfl⟩
  · exact Or.inl rfl

/-- A removal that leaves no directory of a short key empty. -/
theorem Stocked.remove (h : Stocked store world.tree) (platform : Platform)
    (hup : dotDot ∉ store.midAt key)
    (hspares : ∀ dir ∈ store.shortDirs, ¬ Strips store key world.tree dir) :
    Stocked store ((store.kvRemove platform key).run world).state.tree := by
  obtain ⟨hunique, hmid⟩ := prefix_normal_midAt hup
  have hroot : normal [] (store.midAt key) ≠ [] := by
    intro hnil
    rw [hnil, List.prefix_nil] at hmid
    simp [midDir] at hmid
  rw [run_kvRemove_eq, run_bind]
  cases hremove : (FileSystem.remove (store.uniqueAt key) : Storage Bool).run world with
  | error fault after =>
      rw [Result.state_error, tree_of_remove_error hremove]
      exact h
  | ok removed after =>
      cases removed with
      | true =>
          obtain ⟨-, rfl⟩ := (run_remove_true_iff h.links.avoidDirs).1 hremove
          have hshrinks := FileTree.shrinks_prune
            (List.prefix_refl (normal [] (store.uniqueAt key))) world.tree
          refine ⟨h.of_shrinks (Or.inl hunique) hshrinks, fun dir hdir hbare => h.stocked dir hdir ?_⟩
          refine hbare.congr (midDir_prefix_of_mem_shortDirs hdir) fun rest =>
            hshrinks.get_other fun hpre => ?_
          have hbelow := hunique.trans hpre
          rw [← List.append_nil store.uniqueDir] at hbelow
          exact store.unique_not_above_mid _ _ hbelow
      | false =>
          obtain ⟨hnone, rfl⟩ := run_remove_false_iff.1 hremove
          simp only [Bool.false_eq_true, if_false]
          rcases @removeMid_cases store { world with log := world.log ++ [store.uniqueAt key] } key
            platform h.links.avoidDirs hup hroot with hsame |
            ⟨gone, between, hunnamed, ⟨hafter, name, hname, hleft⟩ |
              ⟨hzero, hentries, ⟨hends, hafter⟩ | ⟨hends, hafter⟩⟩⟩
          · rw [hsame]
            exact h
          · rw [hafter]
            refine ⟨h.of_shrinks (Or.inr hmid) (shrinks_of_unnamed hunnamed),
              fun dir hdir hbare => ?_⟩
            obtain ⟨rfl, hall⟩ := hbare.of_unnamed (h.stocked dir hdir) hunnamed
            exact hleft (hall name hname)
          · rw [hafter]
            refine ⟨h.of_shrinks (Or.inr hmid) ((shrinks_of_unnamed hunnamed).trans
              (FileTree.shrinks_prune (List.prefix_refl _) _)), fun dir hdir hbare => ?_⟩
            by_cases hbetween : between.Bare dir
            · obtain ⟨rfl, -⟩ := hbetween.of_unnamed (h.stocked dir hdir) hunnamed
              have hgone := hbare.1
              rw [FileTree.get_prune hroot, if_pos (List.prefix_refl _)] at hgone
              simp at hgone
            · obtain ⟨name, hname, honly⟩ := hbare.of_prune hbetween hroot
              refine hspares dir hdir ⟨hnone, hzero, hentries, Or.inl ⟨hends, name, hname,
                fun other hother => honly other ?_⟩⟩
              rw [hunnamed, if_neg]
              · exact hother
              · rintro ⟨entry, -, hpre⟩
                have hlength := hpre.length_le
                rw [hname] at hlength
                simp at hlength
          · rw [hafter]
            refine ⟨h.of_shrinks (Or.inr hmid) (shrinks_of_unnamed hunnamed),
              fun dir hdir hbare => ?_⟩
            obtain ⟨rfl, -⟩ := hbare.of_unnamed (h.stocked dir hdir) hunnamed
            exact hspares _ hdir ⟨hnone, hzero, hentries, Or.inr ⟨hends, rfl⟩⟩

end Removals

/-! ## Getting a key after a run -/

/-- The slots of the store, where `kv_get` does not go through the cache. -/
def slots (store : KvBlockstore) : KvSlots := ⟨store.kvPutFaulty, store.kvGetUncached, store.kvRemove⟩

/-- There is no block of the key, and its directory holds no file. -/
def NoValue (store : KvBlockstore) (key : Bytes) (tree : FileTree) : Prop :=
  (tree.get (store.uniqueAt key) = none ∨ tree.get (store.uniqueAt key) = some .dir) ∧
    ∀ name, tree.get (store.keyDir key ++ [name]) = none ∨
      tree.get (store.keyDir key ++ [name]) = some .dir

/-- A fresh store has no directories of keys. -/
theorem Empty.stocked {tree : FileTree} (h : Empty store tree) : Stocked store tree := by
  refine ⟨⟨h.links, h.toEmpty.sound.apart, fun path target hlink hpre => ?_⟩, ?_⟩
  · obtain ⟨-, content, hfile⟩ := h.links path target hlink
    obtain ⟨rest, rfl⟩ := hpre
    by_cases hrest : rest = []
    · rw [hrest, List.append_nil, h.mid] at hfile
      simp at hfile
    · simp [h.midEmpty rest hrest] at hfile
  · rintro dir ⟨key, -, rfl⟩ hbare
    have hdir := hbare.1
    rw [keyDir, h.midEmpty _ (by simp [shard])] at hdir
    simp at hdir

section Calls

variable {world : World} {key : Bytes}

/-- Loading the block of a key yields the bytes of a file to which its path leads, or throws. -/
theorem run_loadBlock_cases (store : KvBlockstore) (key : Bytes) (world : World) :
    ∃ after, after.tree = world.tree ∧
      ((store.loadBlock (validateKey store.sha key)).run world = .error .fileNotFound after ∨
        ∃ file content, world.tree.resolve (store.uniqueAt key) = some file ∧
          world.tree.get file = some (.file content) ∧
          (store.loadBlock (validateKey store.sha key)).run world = .ok content after) := by
  refine ⟨{ world with log := world.log ++ [store.uniqueAt key] }, rfl, ?_⟩
  simp only [Blockstore.loadBlock, run_bind, run_pathText_validateKey, run_openIn]
  rw [show store.uniqueDir ++ components (shardText (validateKey store.sha key)) =
    store.uniqueAt key from rfl]
  cases hresolve : world.tree.resolve (store.uniqueAt key) with
  | none => exact Or.inl rfl
  | some file =>
      simp only [readAll, run_bind, run_get, run_pure, FileTree.content]
      cases hnode : world.tree.get file with
      | none => exact Or.inl rfl
      | some node =>
          cases node with
          | dir => exact Or.inl rfl
          | link target => exact Or.inl rfl
          | file content => exact Or.inr ⟨file, content, rfl, hnode, rfl⟩

/-- Reading the directory of a key yields nothing, or the control flows off the end of the function,
or the bytes of a file are read to which an entry leads. -/
theorem run_readMid_cases (store : KvBlockstore) (platform : Platform) (key : Bytes) (world : World) :
    ∃ after, (store.readMid platform (validateKey store.sha key)).run world = .ok (false, []) after ∨
      (store.readMid platform (validateKey store.sha key)).run world =
        platform.flowed.run after ∨
      ∃ dir name file content result, world.tree.resolve (store.midAt key) = some dir ∧
        name ∈ world.tree.names dir ∧ world.tree.resolve (store.midDir ++ components
          (shardText (validateKey store.sha key) ++ slash :: name)) = some file ∧
        world.tree.get file = some (.file content) ∧
        (store.readMid platform (validateKey store.sha key)).run world = .ok result after := by
  rw [readMid, run_tryCatch_eq]
  simp only [run_bind, run_pathText_validateKey, run_isDirectory]
  rw [show store.midDir ++ components (shardText (validateKey store.sha key)) =
    store.midAt key from rfl]
  by_cases hdir : (world.tree.resolve (store.midAt key)).bind world.tree.get = some .dir
  · obtain ⟨dir, hresolve, hnode⟩ := Option.bind_eq_some_iff.1 hdir
    simp only [hresolve, Option.bind_some, hnode, decide_true, if_true, run_bind, listDirectory,
      run_record, run_get]
    cases horder : platform.listing.order (world.tree.names dir) with
    | nil =>
        refine ⟨{ world with log := world.log ++ [store.midAt key] }, Or.inr (Or.inl ?_)⟩
        rcases FFStore.flowed_cases platform with ⟨found, -, hflow⟩ | ⟨-, hflow⟩
        · simp [hflow]
        · rw [hflow]
          rfl
    | cons name rest =>
        have hname : name ∈ world.tree.names dir :=
          (platform.listing.perm _).mem_iff.1 (horder ▸ List.mem_cons_self)
        refine ⟨{ world with log := world.log ++ [store.midAt key] ++ [store.midDir ++
          components (shardText (validateKey store.sha key) ++ slash :: name)] }, ?_⟩
        simp only [readEntry, run_bind, run_openIn, run_pure]
        cases hentry : world.tree.resolve (store.midDir ++ components
            (shardText (validateKey store.sha key) ++ slash :: name)) with
        | none => exact Or.inl rfl
        | some file =>
            simp only [readAll, run_bind, run_get, run_pure, FileTree.content]
            cases hfile : world.tree.get file with
            | none => exact Or.inl rfl
            | some node =>
                cases node with
                | dir => exact Or.inl rfl
                | link target => exact Or.inl rfl
                | file content =>
                    exact Or.inr (Or.inr ⟨dir, name, file, content, _, rfl, hname, hentry, hfile, rfl⟩)
  · refine ⟨world, Or.inl ?_⟩
    simp [hdir]

/-- Where the directory of the key is not empty, it does not matter what the platform yields when
the control flows off the end of `kv_get`. -/
theorem run_readMid_flowOff (platform : Platform) (flowOff : Option Bool)
    (h : ∀ dir, world.tree.resolve (store.midAt key) = some dir → ¬ world.tree.Bare dir) :
    (store.readMid { platform with flowOff := flowOff } (validateKey store.sha key)).run world =
      (store.readMid platform (validateKey store.sha key)).run world := by
  rw [readMid, readMid, run_tryCatch_eq, run_tryCatch_eq]
  simp only [run_bind, run_pathText_validateKey, run_isDirectory]
  rw [show store.midDir ++ components (shardText (validateKey store.sha key)) =
    store.midAt key from rfl]
  by_cases hdir : (world.tree.resolve (store.midAt key)).bind world.tree.get = some .dir
  · obtain ⟨dir, hresolve, hnode⟩ := Option.bind_eq_some_iff.1 hdir
    simp only [hresolve, Option.bind_some, hnode, decide_true, if_true, run_bind, listDirectory,
      run_record, run_get]
    cases horder : platform.listing.order (world.tree.names dir) with
    | nil =>
        have hnil := platform.listing.perm (world.tree.names dir)
        rw [horder, List.nil_perm] at hnil
        exact absurd ⟨hnode, FileTree.names_eq_nil_iff.1 hnil⟩ (h dir hresolve)
    | cons name rest => rfl
  · simp [hdir]

/-- The path of a short key leads to its directory, or to a file. -/
theorem Stocked.not_bare (h : Stocked store world.tree) (hshort : key.length < 128) {dir : FilePath}
    (hresolve : world.tree.resolve (store.midAt key) = some dir) : ¬ world.tree.Bare dir := by
  intro hbare
  have hhex := hexId_validateKey store.sha hshort
  have hpass : world.tree.Passable (store.midAt key) := by
    rw [← FileTree.resolve_dir_iff h.links.avoidDirs, hresolve, Option.bind_some, hbare.1]
  rw [FileTree.resolve_of_passable hpass, normal_of_plain (plain_midAt hhex), List.nil_append,
    Option.some.injEq, midAt_eq_keyDir hhex] at hresolve
  exact h.stocked _ ⟨key, hshort, rfl⟩ (hresolve ▸ hbare)

/-- An uncached `kv_get` reads a block, or else the directory of the key. -/
theorem run_kvGetUncached_eq (store : KvBlockstore) (key : Bytes) (world : World) :
    (∃ file content last, world.tree.resolve (store.uniqueAt key) = some file ∧
        world.tree.get file = some (.file content) ∧
        ∀ platform, (store.kvGetUncached platform key).run world =
          .ok (true, [(toHex (store.sha.hash content), content)]) last) ∨
      ∃ after, after.tree = world.tree ∧ ∀ platform, (store.kvGetUncached platform key).run world =
        (store.readMid platform (validateKey store.sha key)).run after := by
  obtain ⟨after, htree, hrun | ⟨file, content, hfile, hnode, hrun⟩⟩ :=
    store.run_loadBlock_cases key world
  · refine Or.inr ⟨after, htree, fun platform => ?_⟩
    simp only [kvGetUncached, kvGetBy, run_bind, run_tryCatch_eq, hrun]
    cases (store.readMid platform (validateKey store.sha key)).run after <;> rfl
  · refine Or.inl ⟨file, content, after, hfile, hnode, fun platform => ?_⟩
    simp only [kvGetUncached, kvGetBy, run_bind, run_tryCatch_eq, hrun]
    rfl

/-- Getting a short key reaches a return statement. -/
theorem Stocked.getReturns (h : Stocked store world.tree) (platform : Platform)
    (hshort : key.length < 128) :
    ∃ result, KvSlots.GetReturns store.slots platform key world result := by
  rcases store.run_kvGetUncached_eq key world with
    ⟨file, content, last, -, -, hrun⟩ | ⟨after, htree, hrun⟩
  · exact ⟨_, last, fun flowOff => hrun _⟩
  have hsame : ∀ flowOff, (store.kvGetUncached { platform with flowOff := flowOff } key).run world =
      (store.readMid { platform with flowOff := some false } (validateKey store.sha key)).run after :=
    fun flowOff => (hrun _).trans (run_readMid_flowOff { platform with flowOff := some false } flowOff
      fun _ hresolve => htree ▸ h.not_bare hshort (htree ▸ hresolve))
  obtain ⟨last, hread | hread | ⟨-, -, -, -, result, -, -, -, -, hread⟩⟩ :=
    store.run_readMid_cases { platform with flowOff := some false } key after
  · exact ⟨_, last, fun flowOff => (hsame flowOff).trans hread⟩
  · exact ⟨_, last, fun flowOff => (hsame flowOff).trans hread⟩
  · exact ⟨_, last, fun flowOff => (hsame flowOff).trans hread⟩

/-- Getting a short key that holds no value returns false. -/
theorem Stocked.getReturns_false (h : Stocked store world.tree) (platform : Platform)
    (hshort : key.length < 128) (hnone : NoValue store key world.tree) :
    KvSlots.GetReturns store.slots platform key world (false, []) := by
  have hhex := hexId_validateKey store.sha hshort
  rcases store.run_kvGetUncached_eq key world with
    ⟨file, content, last, hresolve, hfile, -⟩ | ⟨after, htree, hrun⟩
  · -- there is no block
    rcases hnone.1 with hnode | hnode
    · rw [FileTree.resolve_of_missing h.links.avoidDirs (plain_uniqueAt hhex) hnode] at hresolve
      simp at hresolve
    · rw [FileTree.resolve_of_get (plain_uniqueAt hhex) hnode (by simp), Option.some.injEq] at hresolve
      rw [← hresolve, hnode] at hfile
      simp at hfile
  have hsame : ∀ flowOff, (store.kvGetUncached { platform with flowOff := flowOff } key).run world =
      (store.readMid { platform with flowOff := some false } (validateKey store.sha key)).run after :=
    fun flowOff => (hrun _).trans (run_readMid_flowOff { platform with flowOff := some false } flowOff
      fun _ hresolve => htree ▸ h.not_bare hshort (htree ▸ hresolve))
  obtain ⟨last, hread | hread | ⟨dir, name, file, content, result, hresolve, hname, hentry, hfile, -⟩⟩ :=
    store.run_readMid_cases { platform with flowOff := some false } key after
  · exact ⟨last, fun flowOff => (hsame flowOff).trans hread⟩
  · exact ⟨last, fun flowOff => (hsame flowOff).trans hread⟩
  · -- an entry that leads to a file would be a value
    rw [htree] at hresolve hname hentry hfile
    have hnode := FileTree.mem_names.1 hname
    have hvalid : ValidName name := FileTree.get_valid hnode
    have hzero : (0 : UInt8) ∉ validateKey store.sha key := hhex.not_mem (by decide)
    have hpass : world.tree.Passable (store.midAt key) := by
      rw [← FileTree.resolve_dir_iff h.links.avoidDirs, hresolve, Option.bind_some,
        FileTree.get_parent hnode]
    rw [FileTree.resolve_of_passable hpass, normal_of_plain (plain_midAt hhex), List.nil_append,
      Option.some.injEq, midAt_eq_keyDir hhex] at hresolve
    subst hresolve
    have hdir := (hnone.2 name).resolve_left hnode
    rw [entry_path store key hvalid.2.1 hvalid.2.2.1, if_neg hzero, midAt_eq_keyDir hhex,
      FileTree.resolve_of_get (fun other hother => ?_) hdir (by simp), Option.some.injEq] at hentry
    · rw [← hentry, hdir] at hfile
      simp at hfile
    · rcases List.mem_append.1 hother with hother | hother
      · exact (hhex.validPath store.midDir_valid).plain other hother
      · exact (List.mem_singleton.1 hother) ▸ hvalid.1

/-- Storing a block that does not return true makes directories above it at most. -/
theorem dirsAlong_storeBlockFaulty {state : FaultyWorld} (store : KvBlockstore) (value : Bytes)
    (hlinks : state.world.tree.LinksToFiles)
    (hfalse : ((store.storeBlockFaulty value).run state).isTrue = false) :
    FileTree.DirsAlong (store.uniqueDir ++ (shard (store.idOf value)).dropLast) state.world.tree
      ((store.storeBlockFaulty value).run state).state.world.tree := by
  have hhex := store.hexId_idOf value
  simp only [storeBlockFaulty, run_bind, run_reliable] at hfalse ⊢
  rw [show toHex (store.sha.hash value) = store.idOf value from rfl, run_pathText hhex, withFaults_ok]
    at hfalse ⊢
  simp only at hfalse ⊢
  have hdirs := @dirsAlong_openBlockFaulty state store.uniqueDir (shardText (store.idOf value)) hlinks
  rw [hhex.components_removeFilename] at hdirs
  cases hopen : (openBlockFaulty store.uniqueDir (shardText (store.idOf value))).run state with
  | error fault after =>
      rw [hopen] at hdirs
      exact hdirs (by simp)
  | ok file after =>
      rw [hopen] at hdirs hfalse
      cases file with
      | none => exact hdirs (by simp)
      | some file => cases hfalse

/-- Putting in the mid directory without returning true makes directories along the path of the key
at most. -/
theorem dirsAlong_putMidFaulty {state : FaultyWorld} (store : KvBlockstore) (key value : Bytes)
    (hlinks : state.world.tree.LinksToFiles)
    (hfalse : ((store.putMidFaulty (validateKey store.sha key) (store.idOf value) value).run
      state).isTrue = false) :
    FileTree.DirsAlong (store.midHome key) state.world.tree
      ((store.putMidFaulty (validateKey store.sha key) (store.idOf value) value).run
        state).state.world.tree := by
  have hdirs := dirsAlong_ensureDirectoryFaulty (ε := Exception) (store.midHome key) hlinks
  simp only [putMidFaulty, run_bind, run_reliable, run_pathText_validateKey, withFaults_ok]
    at hfalse ⊢
  rw [show store.midDir ++ components (removeFilename (shardText (validateKey store.sha key) ++
    [slash, 120])) = store.midHome key from rfl] at hfalse ⊢
  cases hmade : (ensureDirectoryFaulty (store.midHome key) : FaultyStorage Bool).run state with
  | error fault made =>
      rw [hmade] at hdirs
      exact hdirs
  | ok flag made =>
      rw [hmade] at hdirs hfalse
      cases flag with
      | false => exact hdirs
      | true =>
          simp only [if_true, run_bind] at hfalse ⊢
          rcases run_openOutFaulty_cases (ε := Exception) (store.midDir ++ components
            (shardText (validateKey store.sha key) ++ slash :: store.idOf value)) made with
            ⟨after, hrun, hsame⟩ | ⟨file, after, hrun, -⟩
          · rw [hrun]
            rw [Result.state_ok, ← hsame] at hdirs
            exact hdirs
          · rw [hrun] at hfalse
            cases hfalse

/-- A put under a short key that does not return true adds no value to the key. -/
theorem NoValue.put {state : FaultyWorld} {value : Bytes} (h : NoValue store key state.world.tree)
    (hlinks : state.world.tree.LinksToFiles) (hshort : key.length < 128)
    (hfalse : ((store.kvPutFaulty key value).run state).isTrue = false) :
    NoValue store key ((store.kvPutFaulty key value).run state).state.world.tree := by
  have hhex := hexId_validateKey store.sha hshort
  rw [kvPutFaulty] at hfalse ⊢
  by_cases hkey : validateKey store.sha key = toHex (store.sha.hash value)
  · rw [if_pos hkey] at hfalse ⊢
    have hdirs := store.dirsAlong_storeBlockFaulty value hlinks hfalse
    have hplain := (validPath_append.2 ⟨store.uniqueDir_valid, fun name hname =>
      (store.hexId_idOf value).validPath_shard name (List.mem_of_mem_dropLast hname)⟩).plain
    refine ⟨?_, fun name => ?_⟩
    · rcases hdirs.get hplain (store.uniqueAt key) with heq | ⟨-, hdir, -⟩
      · rw [heq]
        exact h.1
      · exact Or.inr hdir
    · rcases hdirs.get hplain (store.keyDir key ++ [name]) with heq | ⟨-, hdir, -⟩
      · rw [heq]
        exact h.2 name
      · exact Or.inr hdir
  · rw [if_neg hkey, show toHex (store.sha.hash value) = store.idOf value from rfl] at hfalse ⊢
    have hdirs := store.dirsAlong_putMidFaulty key value hlinks hfalse
    rw [midHome_eq_keyDir hhex] at hdirs
    have hplain := (hhex.validPath store.midDir_valid).plain
    refine ⟨?_, fun name => ?_⟩
    · rcases hdirs.get hplain (store.uniqueAt key) with heq | ⟨-, hdir, -⟩
      · rw [heq]
        exact h.1
      · exact Or.inr hdir
    · rcases hdirs.get hplain (store.keyDir key ++ [name]) with heq | ⟨-, hdir, -⟩
      · rw [heq]
        exact h.2 name
      · exact Or.inr hdir

end Calls

/-- In every run in which no call leaves the directory of a short key empty, getting a short key is
defined. -/
theorem defined_of_reaches {platform : Platform} {start world : World}
    (hempty : Empty store start.tree)
    (h : KvSlots.Reaches store.slots platform (Spares store) start world) :
    KvSlots.Defined store.slots platform (NoValue store) (Spares store) world := by
  have hstep : ∀ world call, Stocked store world.tree → Spares store world call →
      Stocked store (store.slots.step platform world call).tree := by
    intro world call hstocked hspares
    cases call with
    | put key value faults => exact @Stocked.put _ ⟨world, faults⟩ _ _ hstocked hspares.1 hspares.2
    | remove key => exact hstocked.remove platform hspares.1 hspares.2
  have hstocked := h.induct hempty.stocked hstep
  refine ⟨fun key hshort => hstocked.getReturns platform hshort,
    fun key value faults hshort hspares hnone hfalse => ⟨hstocked.getReturns_false platform hshort hnone,
      (hstep _ _ hstocked hspares).getReturns_false platform hshort ?_⟩⟩
  exact @NoValue.put store key ⟨world, faults⟩ value hnone hstocked.links hshort hfalse

end KvBlockstore

/-- Whether a call returned a pair that begins with this flag. -/
def returnsFlag (flag : Bool) : EStateM.Result Exception World (Bool × KvResMap) → Bool
  | .ok (found, _) _ => found = flag
  | .error _ _ => false

end AnarchNet
