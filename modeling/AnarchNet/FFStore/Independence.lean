import AnarchNet.FFStore.AnyKey
import AnarchNet.FFStore.Multimap

/-!
# Keys that do not meet

Two keys share nothing as long as neither of their paths contains the other. `Apart` says this of
a set of keys, and `Tidy` is what every run on such keys keeps true of the tree. In a tidy tree the
success of `kv_get` and `kv_put` on a key depends only on what is at and below the path of the key,
and that is not touched by a call on another key. Keys of 128 bytes and more can meet, because they
are used as paths.
-/

namespace AnarchNet.FFStore

open FileSystem EStateM

variable {store : FFStore}

/-- No path leads upwards, and the paths of keys that differ do not contain each other. -/
structure Apart (store : FFStore) (keys : Set Bytes) : Prop where
  descends : ∀ key ∈ keys, dotDot ∉ store.place key
  apart : ∀ key ∈ keys, ∀ other ∈ keys, validateKey store.sha key ≠ validateKey store.sha other →
    ¬ store.spot key <+: store.spot other

/-- What runs on keys that are apart keep true: there are no files in the link directory, above the
directory of a key there are only directories, and in it there are only links. -/
structure Tidy (store : FFStore) (keys : Set Bytes) (tree : FileTree) : Prop where
  sound : Sound store tree
  noFiles : ∀ rest content, tree.get (store.linkDir ++ rest) ≠ some (.file content)
  above : ∀ key ∈ keys, ∀ path, path <+: store.spot key →
    tree.get path = none ∨ tree.get path = some .dir
  entries : ∀ key ∈ keys, ∀ name, tree.get (store.spot key ++ [name]) = none ∨
    ∃ target, tree.get (store.spot key ++ [name]) = some (.link target)

/-- A key whose path does not lead upwards leads below the link directory. -/
theorem linkDir_prefix_spot {key : Bytes} (h : dotDot ∉ store.place key) :
    store.linkDir <+: store.spot key := by
  rw [spot, place, normal_append, normal_of_plain store.linkDir_valid.plain, List.nil_append]
  exact prefix_normal (fun hmem => h (List.mem_append_right _ hmem)) _

/-- Keys with the same validated form have the same path. -/
theorem spot_eq_of_validateKey {key other : Bytes}
    (h : validateKey store.sha key = validateKey store.sha other) :
    store.spot key = store.spot other := by
  rw [spot, spot, place, place, h]

/-- The empty store is tidy. -/
theorem Initial.tidy {keys : Set Bytes} {tree : FileTree} (h : Initial store tree)
    (hkeys : Apart store keys) : Tidy store keys tree := by
  have hlinkDir : ∀ rest, tree.get (store.linkDir ++ rest) = none ∨
      tree.get (store.linkDir ++ rest) = some .dir := by
    intro rest
    by_cases hrest : rest = []
    · exact Or.inr (by rw [hrest, List.append_nil, h.linkDir])
    · exact Or.inl (h.noEntries rest hrest)
  refine ⟨h.sound, fun rest content hfile => ?_, fun key hkey path hpath => ?_,
    fun key hkey name => Or.inl ?_⟩
  · rcases hlinkDir rest with hnone | hdir
    · simp [hnone] at hfile
    · simp [hdir] at hfile
  · obtain ⟨tail, htail⟩ := linkDir_prefix_spot (hkeys.descends key hkey)
    rw [← htail] at hpath
    rcases prefix_append_cases hpath with ⟨rest, hrest⟩ | ⟨rest, rfl, -⟩
    · exact Or.inr (FileTree.get_dir_of_append (hrest ▸ h.linkDir))
    · exact hlinkDir rest
  · obtain ⟨tail, htail⟩ := linkDir_prefix_spot (hkeys.descends key hkey)
    rw [← htail, List.append_assoc]
    exact h.noEntries _ (by simp)

section Calls

variable {world : World} {key value : Bytes}

/-- Putting a value under a key whose path does not lead upwards keeps the tree sound. In the link
directory, only directories along the path and a link behind it are new. -/
theorem sound_kvPut (value : Bytes) (hsound : Sound store world.tree) (h : dotDot ∉ store.place key) :
    Sound store ((store.kvPut key value).run world).state.tree ∧
      ∀ rest, ((store.kvPut key value).run world).state.tree.get (store.linkDir ++ rest) =
          world.tree.get (store.linkDir ++ rest) ∨
        ((store.kvPut key value).run world).state.tree.get (store.linkDir ++ rest) = some .dir ∧
          store.linkDir ++ rest <+: store.spot key ∨
        ((store.kvPut key value).run world).state.tree.get (store.linkDir ++ rest) =
            some (.link (store.block value)) ∧
          store.linkDir ++ rest = store.spot key ++ [store.linkName value] := by
  obtain ⟨middle, -, hstored, hsound', hrun⟩ := run_kvPut_eq key value hsound
  have hlinked := linkedAlong_putLink store key value hsound'.linksToFiles
  rw [hrun]
  obtain ⟨tail, htail⟩ := linkDir_prefix_spot h
  have hnew : FileTree.Grows (fun path node => (node = .dir ∧ path <+: store.spot key) ∨
      (node = .link (store.block value) ∧ path = store.spot key ++ [store.linkName value]))
      middle.tree _ := hlinked.grows.imp (by
    rintro path node (⟨rfl, stage, hstage, rfl⟩ | ⟨rfl, -, rfl⟩)
    · exact Or.inl ⟨rfl, normal_prefix_normal h hstage []⟩
    · exact Or.inr ⟨rfl, rfl⟩)
  refine ⟨hsound'.of_data (fun rest => ?_) (hnew.get_of_some hsound'.linkDir)
    fun path target hlink => ?_, fun rest => ?_⟩
  · rcases hnew.get (store.dataDir ++ rest) with heq | ⟨-, node, -, ⟨-, hpre⟩ | ⟨-, heq⟩⟩
    · exact heq
    · rw [← htail] at hpre
      exact absurd hpre (store.not_data_prefix_link _ _)
    · rw [← htail, List.append_assoc] at heq
      exact absurd heq.symm (store.link_ne_data _ _)
  · rcases hnew.get path with heq | ⟨-, node, hnode, ⟨rfl, -⟩ | ⟨rfl, hpath⟩⟩
    · exact Or.inl (heq ▸ hlink)
    · rw [hnode] at hlink
      simp at hlink
    · rw [hnode, Option.some.injEq, Node.link.injEq] at hlink
      refine Or.inr ⟨?_, value, value, hlink.symm, hlink ▸ hstored.get_file⟩
      rw [hpath, ← htail, List.append_assoc]
      exact List.prefix_append _ _
  · rcases hnew.get (store.linkDir ++ rest) with heq | ⟨-, node, hnode, ⟨rfl, hpre⟩ | ⟨rfl, hpath⟩⟩
    · exact Or.inl (heq.trans (get_link_of_stored hstored rest))
    · exact Or.inr (Or.inl ⟨hnode, hpre⟩)
    · exact Or.inr (Or.inr ⟨hnode, hpath⟩)

end Calls

/-- Where keys differ, the link directory is not at or below the path of a key. -/
theorem Apart.not_above {keys : Set Bytes} (hkeys : Apart store keys) {one other key : Bytes}
    (hone : one ∈ keys) (hother : other ∈ keys)
    (hne : validateKey store.sha one ≠ validateKey store.sha other) (hkey : key ∈ keys) :
    ¬ store.spot key <+: store.linkDir := by
  intro hpre
  by_cases hsame : validateKey store.sha key = validateKey store.sha one
  · exact hkeys.apart key hkey other hother (hsame ▸ hne)
      (hpre.trans (linkDir_prefix_spot (hkeys.descends other hother)))
  · exact hkeys.apart key hkey one hone hsame
      (hpre.trans (linkDir_prefix_spot (hkeys.descends one hone)))

namespace Tidy

variable {keys : Set Bytes} {world : World} {key : Bytes}

/-- Putting a value keeps the tree tidy. -/
theorem put (h : Tidy store keys world.tree) (hkeys : Apart store keys) (hkey : key ∈ keys)
    (value : Bytes) : Tidy store keys ((store.kvPut key value).run world).state.tree := by
  obtain ⟨hsound, hget⟩ := sound_kvPut value h.sound (hkeys.descends key hkey)
  -- another key above the new directories or the new link would be the key itself
  have hsame : ∀ other ∈ keys, store.spot other <+: store.spot key ∨
      store.spot key <+: store.spot other → store.spot other = store.spot key := by
    intro other hother hpre
    by_contra hne
    have hvalid : validateKey store.sha other ≠ validateKey store.sha key := fun heq =>
      hne (spot_eq_of_validateKey heq)
    rcases hpre with hpre | hpre
    · exact hkeys.apart other hother key hkey hvalid hpre
    · exact hkeys.apart key hkey other hother hvalid.symm hpre
  refine ⟨hsound, fun rest content hfile => ?_, fun other hother path hpath => ?_,
    fun other hother name => ?_⟩
  · rcases hget rest with heq | ⟨hnode, -⟩ | ⟨hnode, -⟩
    · exact h.noFiles rest content (heq ▸ hfile)
    · simp [hnode] at hfile
    · simp [hnode] at hfile
  · obtain ⟨tail, htail⟩ := linkDir_prefix_spot (hkeys.descends other hother)
    rcases prefix_append_cases (htail ▸ hpath) with ⟨rest, hrest⟩ | ⟨rest, rfl, -⟩
    · exact Or.inr (FileTree.get_dir_of_append (hrest ▸ hsound.linkDir))
    · rcases hget rest with heq | ⟨hnode, -⟩ | ⟨-, hlink⟩
      · rw [heq]
        exact h.above other hother _ hpath
      · exact Or.inr hnode
      · rw [hlink] at hpath
        have heq := hsame other hother (Or.inr ((List.prefix_append _ _).trans hpath))
        exact absurd (eq_nil_of_append_le (heq ▸ hpath)) (by simp)
  · obtain ⟨tail, htail⟩ := linkDir_prefix_spot (hkeys.descends other hother)
    have hold := h.entries other hother name
    have hnew := hget (tail ++ [name])
    rw [← List.append_assoc, htail] at hnew
    rcases hnew with heq | ⟨-, hpre⟩ | ⟨hnode, -⟩
    · rw [heq]
      exact hold
    · have heq := hsame other hother (Or.inl ((List.prefix_append _ _).trans hpre))
      exact absurd (eq_nil_of_append_le (heq ▸ hpre)) (by simp)
    · exact Or.inr ⟨_, hnode⟩

/-- Putting a value under a key changes nothing at or below the path of another one. -/
theorem get_put (h : Tidy store keys world.tree) (hkeys : Apart store keys) (hkey : key ∈ keys)
    (value : Bytes) {other : Bytes} (hother : other ∈ keys)
    (hne : validateKey store.sha key ≠ validateKey store.sha other) (rest : FilePath) :
    ((store.kvPut key value).run world).state.tree.get (store.spot other ++ rest) =
      world.tree.get (store.spot other ++ rest) := by
  obtain ⟨-, hget⟩ := sound_kvPut value h.sound (hkeys.descends key hkey)
  obtain ⟨tail, htail⟩ := linkDir_prefix_spot (hkeys.descends other hother)
  have hnew := hget (tail ++ rest)
  rw [← List.append_assoc, htail] at hnew
  rcases hnew with heq | ⟨-, hpre⟩ | ⟨-, hlink⟩
  · exact heq
  · exact absurd ((List.prefix_append _ _).trans hpre) (hkeys.apart other hother key hkey hne.symm)
  · have hpre : store.spot other <+: store.spot key ++ [store.linkName value] :=
      hlink ▸ List.prefix_append _ _
    rcases List.prefix_concat_iff.1 hpre with heq | hpre
    · exact absurd (heq ▸ List.prefix_append _ _) (hkeys.apart key hkey other hother hne)
    · exact absurd hpre (hkeys.apart other hother key hkey hne.symm)

/-- Nothing but links and directories is at or below the path of a key. -/
theorem removable (h : Tidy store keys world.tree) (hup : dotDot ∉ store.place key) :
    world.tree.Removable (store.spot key) := by
  refine ⟨h.sound.linksToFiles, fun path content hpath => ?_⟩
  obtain ⟨rest, rfl⟩ := (linkDir_prefix_spot hup).trans hpath
  exact h.noFiles rest content

/-- Removing a key changes nothing at or below the path of another one. -/
theorem get_remove (h : Tidy store keys world.tree) (hkeys : Apart store keys)
    (platform : Platform) (hkey : key ∈ keys) {other : Bytes} (hother : other ∈ keys)
    (hne : validateKey store.sha key ≠ validateKey store.sha other) (rest : FilePath) :
    ((store.kvRemove platform key).run world).state.tree.get (store.spot other ++ rest) =
      world.tree.get (store.spot other ++ rest) := by
  have hshrinks := store.removes_kvRemove platform key world
    (h.removable (hkeys.descends key hkey))
  refine hshrinks.get_other fun hpre => ?_
  rcases List.prefix_or_prefix_of_prefix hpre (List.prefix_append _ _) with hpre | hpre
  · exact hkeys.apart key hkey other hother hne hpre
  · exact hkeys.apart other hother key hkey hne.symm hpre

/-- Removing a key keeps the tree tidy. -/
theorem remove (h : Tidy store keys world.tree) (hkeys : Apart store keys) (platform : Platform)
    (hkey : key ∈ keys) (hnot : ¬ store.spot key <+: store.linkDir) :
    Tidy store keys ((store.kvRemove platform key).run world).state.tree := by
  have hshrinks := store.removes_kvRemove platform key world
    (h.removable (hkeys.descends key hkey))
  have hdata : ∀ rest, ((store.kvRemove platform key).run world).state.tree.get
      (store.dataDir ++ rest) = world.tree.get (store.dataDir ++ rest) := by
    intro rest
    obtain ⟨tail, htail⟩ := linkDir_prefix_spot (hkeys.descends key hkey)
    exact hshrinks.get_other (htail ▸ store.not_link_prefix_data _ _)
  refine ⟨h.sound.of_data hdata ?_ fun path target hlink => Or.inl (hshrinks.get_of_some hlink),
    fun rest content hfile => h.noFiles rest content (hshrinks.get_of_some hfile),
    fun other hother path hpath => ?_, fun other hother name => ?_⟩
  · rw [hshrinks.get_other hnot, h.sound.linkDir]
  · rcases hshrinks path with heq | ⟨-, hnone⟩
    · rw [heq]
      exact h.above other hother path hpath
    · exact Or.inl hnone
  · rcases hshrinks (store.spot other ++ [name]) with heq | ⟨-, hnone⟩
    · rw [heq]
      exact h.entries other hother name
    · exact Or.inl hnone

/-- A run on keys that are apart keeps the tree tidy, if there are two of them. -/
theorem run (h : Tidy store keys world.tree) (hkeys : Apart store keys) (platform : Platform)
    {one other : Bytes} (hone : one ∈ keys) (hother : other ∈ keys)
    (hne : validateKey store.sha one ≠ validateKey store.sha other) (ops : List Op)
    (hops : ∀ op ∈ ops, op.key ∈ keys) : Tidy store keys (store.run platform ops world).tree := by
  refine List.foldlRecOn (motive := fun last : World => Tidy store keys last.tree) ops _ h ?_
  intro last hlast op hop
  cases op with
  | put key value => exact hlast.put hkeys (hops _ hop) value
  | remove key =>
      exact hlast.remove hkeys platform (hops _ hop)
        (hkeys.not_above hone hother hne (hops _ hop))

/-- In a tidy tree, something is found under a key if its directory is there, and lists an entry
that a key without a zero byte can name, or lists nothing. -/
theorem finds_iff {tree : FileTree} (h : Tidy store keys tree) (hkeys : Apart store keys)
    (platform : Platform) (hkey : key ∈ keys) :
    Finds store platform tree key ↔ tree.get (store.spot key) = some .dir ∧
      ((∀ name, tree.get (store.spot key ++ [name]) = none) → platform.flowOff = some true) ∧
      ((∃ name, tree.get (store.spot key ++ [name]) ≠ none) →
        (0 : UInt8) ∉ validateKey store.sha key) := by
  have hlinks := h.sound.linksToFiles
  constructor
  · rintro ⟨dir, hresolve, hdir, hfirst⟩
    obtain ⟨hpass, rfl⟩ : tree.Passable (store.place key) ∧ dir = store.spot key := by
      rcases FileTree.resolve_cases hlinks hresolve with hpass |
        ⟨front, name, content, -, -, -, hfile, -⟩
      · exact hpass
      · rw [hdir] at hfile
        simp at hfile
    refine ⟨hdir, fun hnone => ?_, ?_⟩
    · cases horder : platform.listing.order (tree.names (store.spot key)) with
      | nil => simpa [horder] using hfirst
      | cons name rest =>
          have hname := (platform.listing.perm _).mem_iff.1 (horder ▸ List.mem_cons_self)
          exact absurd (hnone name) (FileTree.mem_names.1 hname)
    · rintro ⟨name, hname⟩ hzero
      have hlisted := (platform.listing.perm _).mem_iff.2 (FileTree.mem_names.2 hname)
      obtain ⟨first, rest, horder⟩ := List.exists_cons_of_ne_nil (List.ne_nil_of_mem hlisted)
      simp only [horder] at hfirst
      obtain ⟨content, file, hentry, hfile⟩ := hfirst
      have hvalid : ValidName first := FileTree.get_valid (FileTree.mem_names.1
        ((platform.listing.perm _).mem_iff.1 (horder ▸ List.mem_cons_self)))
      -- behind a zero byte the entry is the directory again, which holds no bytes
      rw [entry_path store key hvalid.2.1 hvalid.2.2.1, if_pos hzero,
        FileTree.resolve_of_passable hpass, Option.some.injEq] at hentry
      rw [← hentry, hdir] at hfile
      simp at hfile
  · rintro ⟨hdir, hempty, hzero⟩
    have hpass := (FileTree.passable_iff_get (hkeys.descends key hkey)).2 hdir
    refine ⟨store.spot key, FileTree.resolve_of_passable hpass, hdir, ?_⟩
    cases horder : platform.listing.order (tree.names (store.spot key)) with
    | nil =>
        refine hempty fun name => ?_
        by_contra hname
        have hlisted := (platform.listing.perm _).mem_iff.2 (FileTree.mem_names.2 hname)
        simp [horder] at hlisted
    | cons name rest =>
        have hname := FileTree.mem_names.1
          ((platform.listing.perm _).mem_iff.1 (horder ▸ List.mem_cons_self))
        have hvalid : ValidName name := FileTree.get_valid hname
        rcases h.entries key hkey name with hnone | ⟨target, hlink⟩
        · exact absurd hnone hname
        · obtain ⟨hplain, content, hfile⟩ := hlinks _ _ hlink
          refine ⟨content, target, ?_, hfile⟩
          rw [entry_path store key hvalid.2.1 hvalid.2.2.1, if_neg (hzero ⟨name, hname⟩)]
          exact FileTree.resolve_snoc_link hpass hvalid.1 hlink hplain hfile

/-- Linking a block succeeds once the directory of the key is there. -/
theorem run_linkBlock (value : Bytes) (hlinks : world.tree.LinksToFiles)
    (hpass : world.tree.Passable (store.home key))
    (hentry : world.tree.get (store.spot key ++ [store.linkName value]) = none ∨
      ∃ target, world.tree.get (store.spot key ++ [store.linkName value]) = some (.link target)) :
    ∃ after, (store.linkBlock key (store.linkName value)).run world = .ok true after := by
  have hhex := store.sha.hexId value
  have hpass := passable_place hpass
  simp only [linkBlock, run_bind, run_present,
    entry_path store key (hhex.not_mem (show slash ∉ hexDigits by decide))
      (hhex.not_mem (show (0 : UInt8) ∉ hexDigits by decide))]
  by_cases hzero : (0 : UInt8) ∈ validateKey store.sha key
  · rw [if_pos hzero, FileTree.resolve_of_passable hpass]
    exact ⟨world, rfl⟩
  rw [if_neg hzero]
  rcases hentry with hnone | ⟨target, hlink⟩
  · obtain ⟨tree, -, hcreate⟩ := run_createNode_passable (ε := Exception)
      (.link (store.block value)) hpass hhex.validName hnone
    rw [FileTree.resolve_snoc_missing hlinks hhex.validName.1 hnone]
    simp only [Option.isSome_none, Bool.false_eq_true, if_false, run_bind, run_pathText hhex,
      hhex.components_shardText, createSymlink]
    rw [show store.dataDir ++ shard (store.linkName value) = store.block value from rfl, hcreate]
    exact ⟨_, rfl⟩
  · obtain ⟨hplain, content, hfile⟩ := hlinks _ _ hlink
    rw [FileTree.resolve_snoc_link hpass hhex.validName.1 hlink hplain hfile]
    exact ⟨world, rfl⟩

/-- In a tidy tree, putting a value under a key succeeds if the names of its path can be stored and
its directory is there or ends in a name. -/
theorem kvPut_true_iff (h : Tidy store keys world.tree) (hkeys : Apart store keys)
    (hkey : key ∈ keys) (value : Bytes) :
    (∃ last, (store.kvPut key value).run world = .ok true last) ↔
      (∀ name ∈ store.place key, Proper name → ValidName name) ∧
        (world.tree.get (store.spot key) = some .dir ∨ EndsInName (store.place key)) := by
  obtain ⟨middle, -, hstored, hsound, hrun⟩ := run_kvPut_eq key value h.sound
  have hup := hkeys.descends key hkey
  obtain ⟨tail, htail⟩ := linkDir_prefix_spot hup
  obtain ⟨count, hcount, -⟩ := store.place_eq_home key
  have hspot : ∀ rest, middle.tree.get (store.spot key ++ rest) =
      world.tree.get (store.spot key ++ rest) := by
    intro rest
    rw [← htail, List.append_assoc, get_link_of_stored hstored]
  have hfree : ∀ stage, stage <+: store.home key →
      middle.tree.get (normal [] stage) = none ∨ middle.tree.get (normal [] stage) = some .dir := by
    intro stage hstage
    have hpre := normal_prefix_normal hup (hstage.trans (store.home_prefix key)) []
    have hold := h.above key hkey _ hpre
    rw [← show store.linkDir ++ tail = normal [] (store.place key) from htail] at hpre
    rcases prefix_append_cases hpre with ⟨rest, hrest⟩ | ⟨rest, hrest, -⟩
    · exact Or.inr (FileTree.get_dir_of_append (hrest ▸ hsound.linkDir))
    · rw [hrest] at hold ⊢
      rwa [get_link_of_stored hstored]
  have hnames : (∀ name ∈ store.place key, Proper name → ValidName name) ↔
      ∀ name ∈ store.home key, Proper name → ValidName name := by
    rw [hcount]
    refine ⟨fun hall name hname => hall name (List.mem_append_left _ hname),
      fun hall name hname hproper => ?_⟩
    rcases List.mem_append.1 hname with hname | hname
    · exact hall name hname hproper
    · exact absurd (Or.inl (List.eq_of_mem_replicate hname)) hproper.1
  have hends : EndsInName (store.place key) ↔ EndsInName (store.home key) := by
    rw [endsInName_iff, endsInName_iff, hcount, List.filter_append]
    simp
  have hensure := run_ensureDirectory_true_iff (ε := Exception) hsound.linksToFiles
    (fun hmem => hup ((store.home_prefix key).subset hmem)) hfree
  rw [show middle.tree.get (normal [] (store.home key)) = world.tree.get (store.spot key) by
    rw [← normal_place]
    simpa using hspot [], ← hnames, ← hends] at hensure
  rw [hrun, run_putLink_eq, ← hensure]
  constructor
  · rintro ⟨last, hlast⟩
    obtain ⟨made, between, hmade, hrest⟩ := run_bind_eq_ok hlast
    cases made with
    | false => simp at hrest
    | true => exact ⟨between, hmade⟩
  · rintro ⟨between, hmade⟩
    obtain ⟨flag, made, hrunMade, hlinks, hpass, hgrows⟩ :=
      run_ensureDirectory_enterable (ε := Exception) hsound.linksToFiles
        ⟨hfree, hnames.1 (hensure.1 ⟨between, hmade⟩).1⟩
    rw [hmade, Result.ok.injEq] at hrunMade
    obtain ⟨-, rfl⟩ := hrunMade
    rw [run_bind, hmade]
    refine run_linkBlock value hlinks hpass ?_
    rcases hgrows.get (store.spot key ++ [store.linkName value]) with heq |
      ⟨-, node, -, -, stage, hstage, heq⟩
    · rw [heq, hspot]
      exact h.entries key hkey _
    · have hlength : _ ≤ (store.spot key).length :=
        (normal_prefix_normal hup (hstage.trans (store.home_prefix key)) []).length_le
      rw [← heq, List.length_append, List.length_singleton] at hlength
      omega

end Tidy

/-- Keys that are hashed, or are the hex form of a hash, are apart. -/
theorem apart_of_hexId {keys : Set Bytes} (h : ∀ key ∈ keys, HexId (validateKey store.sha key)) :
    Apart store keys := by
  have hspot : ∀ key ∈ keys, store.spot key = store.keyDir key := fun key hkey => by
    rw [spot, place_eq_keyDir (h key hkey), normal_of_plain (validPath_keyDir (h key hkey)).plain,
      List.nil_append]
  refine ⟨fun key hkey hmem => ?_, fun key hkey other hother hne hpre => ?_⟩
  · rw [place_eq_keyDir (h key hkey)] at hmem
    exact ((validPath_keyDir (h key hkey)).plain dotDot hmem).2 rfl
  · rw [hspot key hkey, hspot other hother, keyDir, keyDir, List.prefix_append_right_inj] at hpre
    exact hne (id_eq_of_shard_le hpre)

/-- Getting the key succeeds. -/
def Gets (store : FFStore) (platform : Platform) (key : Bytes) (world : World) : Prop :=
  ∃ result last, (store.kvGet platform key).run world = .ok (true, result) last

/-- Putting the value under the key succeeds. -/
def Puts (store : FFStore) (key value : Bytes) (world : World) : Prop :=
  ∃ last, (store.kvPut key value).run world = .ok true last

/-- The links in the directory of a key, with their targets. -/
def linksIn (store : FFStore) (key : Bytes) (tree : FileTree) : Set (Name × FilePath) :=
  {entry | tree.get (store.spot key ++ [entry.1]) = some (.link entry.2)}

/-- Calls on one key change nothing for the other one: neither whether it can be got, nor its links,
nor that a value can be put under it. -/
structure Independent (store : FFStore) (platform : Platform) (one other : Bytes) (world : World) :
    Prop where
  gets : ∀ op : Op, op.key = one →
    (Gets store platform other (store.step platform world op) ↔ Gets store platform other world)
  links : ∀ op : Op, op.key = one →
    store.linksIn other (store.step platform world op).tree = store.linksIn other world.tree
  puts : ∀ value, Puts store other value world →
    Puts store other value (store.step platform world (.put one value))

/-- A call leaves the other keys of a tidy tree alone, at and below their paths. -/
theorem Tidy.step {keys : Set Bytes} {world : World} {one other : Bytes}
    (h : Tidy store keys world.tree) (hkeys : Apart store keys) (platform : Platform)
    (hone : one ∈ keys) (hother : other ∈ keys)
    (hne : validateKey store.sha one ≠ validateKey store.sha other) {op : Op} (hop : op.key = one) :
    Tidy store keys (store.step platform world op).tree ∧
      ∀ rest, (store.step platform world op).tree.get (store.spot other ++ rest) =
        world.tree.get (store.spot other ++ rest) := by
  subst hop
  cases op with
  | put key value => exact ⟨h.put hkeys hone value, h.get_put hkeys hone value hother hne⟩
  | remove key =>
      exact ⟨h.remove hkeys platform hone (hkeys.not_above hone hother hne hone),
        h.get_remove hkeys platform hone hother hne⟩

/-- In a tidy tree, keys whose paths do not contain each other are independent. -/
theorem Tidy.independent {keys : Set Bytes} {world : World} {one other : Bytes}
    (h : Tidy store keys world.tree) (hkeys : Apart store keys) (platform : Platform)
    (hone : one ∈ keys) (hother : other ∈ keys)
    (hne : validateKey store.sha one ≠ validateKey store.sha other) :
    Independent store platform one other world := by
  refine ⟨fun op hop => ?_, fun op hop => ?_, fun value hputs => ?_⟩
  · obtain ⟨hafter, hget⟩ := h.step hkeys platform hone hother hne hop
    have hdir := hget []
    rw [List.append_nil] at hdir
    rw [Gets, Gets, run_kvGet_true_iff, run_kvGet_true_iff, hafter.finds_iff hkeys platform hother,
      h.finds_iff hkeys platform hother, hdir]
    simp only [hget]
  · obtain ⟨-, hget⟩ := h.step hkeys platform hone hother hne hop
    ext entry
    simp only [linksIn, Set.mem_ofPred_eq, hget]
  · obtain ⟨hafter, hget⟩ :=
      h.step hkeys platform hone hother hne (show Op.key (.put one value) = one from rfl)
    have hdir := hget []
    rw [List.append_nil] at hdir
    rw [Puts, hafter.kvPut_true_iff hkeys hother, hdir]
    exact (h.kvPut_true_iff hkeys hother value).1 hputs

/-- After every run on keys that are apart, two keys with different validated forms are
independent. -/
theorem keys_independent (store : FFStore) (platform : Platform) (ops : List Op) (world : World)
    (one other : Bytes) (hinitial : Initial store world.tree)
    (hkeys : Apart store {key | key = one ∨ key = other ∨ ∃ op ∈ ops, op.key = key})
    (hne : validateKey store.sha one ≠ validateKey store.sha other) :
    Independent store platform one other (store.run platform ops world) := by
  have hone : one ∈ {key | key = one ∨ key = other ∨ ∃ op ∈ ops, op.key = key} := Or.inl rfl
  have hother : other ∈ {key | key = one ∨ key = other ∨ ∃ op ∈ ops, op.key = key} :=
    Or.inr (Or.inl rfl)
  have htidy := (hinitial.tidy hkeys).run hkeys platform hone hother hne
    ops fun op hop => Or.inr (Or.inr ⟨op, hop, rfl⟩)
  exact htidy.independent hkeys platform hone hother hne

/-- The keys `k` and `a` are independent, also when values were put under both. -/
theorem keys_independent_letters :
    Independent letterStore plainPlatform [107] [97]
      (letterStore.run plainPlatform [.put [107] [98], .put [97] [98]] letterStore.fresh) := by
  refine keys_independent letterStore plainPlatform _ _ _ _ letterStore.initial_fresh
    (apart_of_hexId ?_) (by decide +kernel)
  rintro key (rfl | rfl | ⟨op, hop, rfl⟩)
  · exact hexId_validateKey _ (by decide)
  · exact hexId_validateKey _ (by decide)
  · refine hexId_validateKey _ ?_
    revert op
    decide

/-- Whether getting the key succeeds, computed. -/
def found (store : FFStore) (platform : Platform) (key : Bytes) (world : World) : Bool :=
  ((Prod.fst <$> store.kvGet platform key).run world).isTrue

/-- The computation agrees with the definition. -/
theorem gets_iff {platform : Platform} {key : Bytes} {world : World} :
    Gets store platform key world ↔ store.found platform key world = true := by
  rw [Gets, found, run_map_eq]
  cases (store.kvGet platform key).run world with
  | ok value last => simp [Result.isTrue, Prod.ext_iff]
  | error fault last => simp [Result.isTrue]

/-- A key of 128 letters, which is not hashed. -/
def longKey : Bytes := List.replicate 128 97

/-- The key `b` below it. -/
def nestedKey : Bytes := longKey ++ [slash, 98]

/-- Removing the long key removes the nested one, which has a value. -/
theorem keys_meet_nested :
    Initial letterStore letterStore.fresh.tree ∧
      validateKey letterStore.sha longKey ≠ validateKey letterStore.sha nestedKey ∧
      ¬ Independent letterStore plainPlatform longKey nestedKey
        (letterStore.run plainPlatform [.put nestedKey [97]] letterStore.fresh) := by
  refine ⟨letterStore.initial_fresh, by decide +kernel, fun h => ?_⟩
  have hrun : ((both (letterStore.kvPut nestedKey [97])
      (both (check fun world => letterStore.found plainPlatform nestedKey world)
        (both (letterStore.kvRemove plainPlatform longKey)
          (check fun world => !letterStore.found plainPlatform nestedKey world)))).run
            letterStore.fresh).isTrue = true := by decide +kernel
  obtain ⟨last, hlast⟩ := Result.exists_of_isTrue hrun
  obtain ⟨stored, hput, hrest⟩ := run_both_eq_true hlast
  obtain ⟨same, hcheck, hrest'⟩ := run_both_eq_true hrest
  obtain ⟨hfound, rfl⟩ := run_check_eq_true hcheck
  obtain ⟨removed, hremove, hcheck'⟩ := run_both_eq_true hrest'
  obtain ⟨hmissing, rfl⟩ := run_check_eq_true hcheck'
  have hstored : letterStore.run plainPlatform [.put nestedKey [97]] letterStore.fresh = same := by
    rw [FFStore.run, List.foldl_cons, List.foldl_nil, step, Op.call, hput, Result.state_ok]
  have hremoved : letterStore.step plainPlatform same (.remove longKey) = last := by
    rw [step, Op.call, hremove, Result.state_ok]
  have hgets := h.gets (.remove longKey) rfl
  rw [hstored, hremoved, gets_iff, gets_iff] at hgets
  rw [hgets.2 hfound] at hmissing
  exact absurd hmissing (by decide)

end AnarchNet.FFStore
