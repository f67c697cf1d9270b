import AnarchNet.FFStore.Basic

/-!
# The flat-file store on hashed keys

A key whose validated form is a hex id has a directory with three plain components. In a sound
tree each function has one specification there: the call returns, with this result, and the node
at every path is this afterwards.
-/

namespace AnarchNet

open FileSystem

namespace FFStore

variable {store : FFStore}

/-- The raw block of a value. -/
def block (store : FFStore) (value : Bytes) : FilePath :=
  store.dataDir ++ shard (toHex (store.sha.hash value))

/-- The link directory of a key. -/
def keyDir (store : FFStore) (key : Bytes) : FilePath :=
  store.linkDir ++ shard (validateKey store.sha key)

/-- The link of a value under a key. -/
def entry (store : FFStore) (key value : Bytes) : FilePath :=
  store.keyDir key ++ [toHex (store.sha.hash value)]

/-- What every tree of a store looks like: the two directories are there, the data directory
holds blocks, and every link leads from the link directory to a block. -/
structure Sound (store : FFStore) (tree : FileTree) : Prop where
  linkDir : tree.get store.linkDir = some .dir
  blocks : BlockDir store.dataDir tree
  links : ∀ path target, tree.get path = some (.link target) →
    store.linkDir <+: path ∧ ∃ id, HexId id ∧ target = store.dataDir ++ shard id ∧
      ∃ content, tree.get target = some (.file content)

/-- A path in the data directory is not in the link directory. -/
theorem not_link_of_data (store : FFStore) {path : FilePath} (h : store.dataDir <+: path) :
    ¬ store.linkDir <+: path := by
  intro hlink
  rcases List.prefix_or_prefix_of_prefix h hlink with hpre | hpre
  · exact store.data_not_link hpre
  · exact store.link_not_data hpre

/-- Nothing in the data directory begins like a path in the link directory, and the other way
round. -/
theorem link_ne_data (store : FFStore) (left right : FilePath) :
    store.linkDir ++ left ≠ store.dataDir ++ right := fun heq =>
  store.not_link_of_data (List.prefix_append store.dataDir right)
    (heq ▸ List.prefix_append store.linkDir left)

/-- A block is not above a path in the link directory. -/
theorem not_link_prefix_data (store : FFStore) (left right : FilePath) :
    ¬ store.linkDir ++ left <+: store.dataDir ++ right := fun hpre =>
  store.not_link_of_data (List.prefix_append store.dataDir right)
    ((List.prefix_append store.linkDir left).trans hpre)

/-- A path in the link directory is not above a block. -/
theorem not_data_prefix_link (store : FFStore) (left right : FilePath) :
    ¬ store.dataDir ++ right <+: store.linkDir ++ left := by
  rintro ⟨tail, heq⟩
  rw [List.append_assoc] at heq
  exact store.link_ne_data left (right ++ tail) heq.symm

/-- The block of a value has valid names only. -/
theorem validPath_block (store : FFStore) (value : Bytes) : ValidPath (store.block value) :=
  validPath_append.2 ⟨store.dataDir_valid, (store.sha.hexId value).validPath_shard⟩

/-- The directory of a hashed key has valid names only. -/
theorem validPath_keyDir {key : Bytes} (h : HexId (validateKey store.sha key)) :
    ValidPath (store.keyDir key) :=
  validPath_append.2 ⟨store.linkDir_valid, h.validPath_shard⟩

/-- A link of a hashed key has valid names only. -/
theorem validPath_entry {key : Bytes} (h : HexId (validateKey store.sha key)) (value : Bytes) :
    ValidPath (store.entry key value) := by
  rw [entry, validPath_append, validPath_cons]
  exact ⟨validPath_keyDir h, (store.sha.hexId value).validName, validPath_nil⟩

namespace Sound

variable {tree : FileTree}

/-- The links of a sound tree lead to files. -/
theorem linksToFiles (h : Sound store tree) : tree.LinksToFiles := by
  intro path target hlink
  obtain ⟨-, id, hid, rfl, hfile⟩ := h.links path target hlink
  exact ⟨(validPath_append.2 ⟨store.dataDir_valid, hid.validPath_shard⟩).plain, hfile⟩

/-- A stored block keeps a tree sound. -/
theorem of_stored (h : Sound store tree) {after : FileTree} {content : Bytes}
    (hstored : Stored (store.block content) content tree after) : Sound store after := by
  refine ⟨?_, h.blocks.of_stored hstored, fun path target hlink => ?_⟩
  · rw [hstored.get_other (by simpa [block] using store.not_link_prefix_data [] _), h.linkDir]
  · obtain ⟨hpath, id, hid, rfl, old, hfile⟩ := h.links path target (hstored.get_link hlink)
    refine ⟨hpath, id, hid, rfl, ?_⟩
    by_cases heq : id = toHex (store.sha.hash content)
    · exact ⟨content, heq ▸ hstored.get_file⟩
    · refine ⟨old, ?_⟩
      rw [hstored.get_other, hfile]
      rw [block, List.prefix_append_right_inj]
      exact fun hpre => heq (id_eq_of_shard_le hpre)

end Sound

section Calls

variable {world : World}

/-- Storing a block makes its directories and leaves the content in its file. Only the data directory
matters. -/
theorem run_storeBlock_of_blocks (hblocks : BlockDir store.dataDir world.tree)
    (hlinks : world.tree.LinksToFiles) (content : Bytes) :
    ∃ after, (store.storeBlock content).run world = .ok true after ∧
      Stored (store.block content) content world.tree after.tree := by
  have hhex := store.sha.hexId content
  obtain ⟨opened, hopened, hstored⟩ := run_openBlock hhex store.dataDir_valid hblocks hlinks
  rw [show store.dataDir ++ shard (toHex (store.sha.hash content)) = store.block content from rfl]
    at hopened hstored
  obtain ⟨after, hafter, hget⟩ := run_writeAt (ε := Exception) 0 content hstored.get_file
  rw [overlay_nil] at hget
  refine ⟨after, ?_, hstored.rewrite hget⟩
  simp only [storeBlock, EStateM.run_bind, run_pathText hhex, hopened, hafter]
  rfl

/-- Storing a block in a sound tree. -/
theorem run_storeBlock (hsound : Sound store world.tree) (content : Bytes) :
    ∃ after, (store.storeBlock content).run world = .ok true after ∧
      Stored (store.block content) content world.tree after.tree :=
  run_storeBlock_of_blocks hsound.blocks hsound.linksToFiles content

/-- The link directory still looks as before when a block was stored. -/
theorem get_link_of_stored {tree after : FileTree} {value : Bytes}
    (h : Stored (store.block value) value tree after) (rest : FilePath) :
    after.get (store.linkDir ++ rest) = tree.get (store.linkDir ++ rest) :=
  h.get_other (store.not_link_prefix_data rest _)

/-- The tree after the directory of a key was made and a block was linked in it. -/
def Linked (store : FFStore) (key value : Bytes) (before after : FileTree) : Prop :=
  ∀ path, after.get path =
    if path = store.entry key value then some (.link (store.block value))
    else if path <+: store.keyDir key then some .dir
    else before.get path

/-- An entry is not above its directory. -/
theorem entry_not_above (store : FFStore) (key value : Bytes) :
    ¬ store.entry key value <+: store.keyDir key :=
  fun hpre => absurd (eq_nil_of_append_le hpre) (by simp)

/-- Linking changes nothing in the data directory. -/
theorem Linked.get_data {key value : Bytes} {before after : FileTree}
    (h : Linked store key value before after) (rest : FilePath) :
    after.get (store.dataDir ++ rest) = before.get (store.dataDir ++ rest) := by
  rw [h, if_neg, if_neg]
  · exact store.not_data_prefix_link _ _
  · rw [entry, keyDir, List.append_assoc]
    exact (store.link_ne_data _ _).symm

/-- A change outside the data directory keeps a tree sound if its new links lead to blocks. -/
theorem Sound.of_data {tree after : FileTree} (h : Sound store tree)
    (hdata : ∀ rest, after.get (store.dataDir ++ rest) = tree.get (store.dataDir ++ rest))
    (hlinkDir : after.get store.linkDir = some .dir)
    (hlinks : ∀ path target, after.get path = some (.link target) →
      tree.get path = some (.link target) ∨ store.linkDir <+: path ∧
        ∃ value content, target = store.block value ∧ tree.get target = some (.file content)) :
    Sound store after := by
  refine ⟨hlinkDir, h.blocks.congr hdata, fun path target hlink => ?_⟩
  rcases hlinks path target hlink with hold | ⟨hpath, value, content, rfl, hfile⟩
  · obtain ⟨hpath, id, hid, rfl, content, hfile⟩ := h.links path target hold
    exact ⟨hpath, id, hid, rfl, content, by rw [hdata, hfile]⟩
  · exact ⟨hpath, _, store.sha.hexId value, rfl, content, by rw [block, hdata, ← block, hfile]⟩

/-- Linking a stored block keeps a tree sound. -/
theorem Sound.of_linked {tree after : FileTree} {key value : Bytes} (h : Sound store tree)
    (hblock : tree.get (store.block value) = some (.file value))
    (hlinked : Linked store key value tree after) : Sound store after := by
  refine h.of_data hlinked.get_data ?_ fun path target hlink => ?_
  · rw [hlinked]
    split
    · rename_i heq
      exact absurd (heq ▸ List.prefix_append store.linkDir _) (entry_not_above store key value)
    · rw [if_pos (show store.linkDir <+: store.keyDir key from List.prefix_append _ _)]
  · rw [hlinked] at hlink
    split at hlink
    · rename_i heq
      simp only [Option.some.injEq, Node.link.injEq] at hlink
      subst hlink heq
      refine Or.inr ⟨?_, value, value, rfl, hblock⟩
      rw [entry, keyDir, List.append_assoc]
      exact List.prefix_append _ _
    · split at hlink
      · simp at hlink
      · exact Or.inl hlink

/-- Linking a stored block under a hashed key. -/
theorem run_putLink {key value : Bytes} (hsound : Sound store world.tree)
    (hkey : HexId (validateKey store.sha key))
    (hblock : world.tree.get (store.block value) = some (.file value))
    (hfree : ∀ above, above <+: store.keyDir key →
      world.tree.get above = none ∨ world.tree.get above = some .dir)
    (hslot : world.tree.get (store.entry key value) = none ∨
      world.tree.get (store.entry key value) = some (.link (store.block value))) :
    ∃ after, (store.putLink (validateKey store.sha key) (toHex (store.sha.hash value))).run world =
        .ok true after ∧ Linked store key value world.tree after.tree := by
  have hhex := store.sha.hexId value
  have hvalid := validPath_entry hkey value
  have hkeyDir := validPath_keyDir hkey
  obtain ⟨made, hmade, hlinks, hget⟩ := run_ensureDirectory (ε := Exception) hsound.linksToFiles
    hkeyDir.plain hfree hkeyDir
  have hentry : made.tree.get (store.entry key value) =
      world.tree.get (store.entry key value) := by
    rw [hget, if_neg (entry_not_above store key value)]
  have htext := hkey.components_shardText_append (hhex.not_mem (show (0 : UInt8) ∉ hexDigits by decide))
    (hhex.not_mem (by decide))
  have hrun : (store.putLink (validateKey store.sha key) (toHex (store.sha.hash value))).run world =
      (if (made.tree.resolve (store.entry key value)).isSome then .ok true made
      else (createSymlink (store.block value) (store.entry key value) >>= fun _ =>
        return true : Storage Bool).run made) := by
    simp only [putLink, EStateM.run_bind, run_pathText hkey,
      hkey.removeFilename_shardText_append (show slash ∉ [(120 : UInt8)] by decide),
      hkey.components_shardText, htext]
    rw [show store.linkDir ++ shard (validateKey store.sha key) = store.keyDir key from rfl, hmade,
      show store.linkDir ++ (shard (validateKey store.sha key) ++ [toHex (store.sha.hash value)]) =
        store.entry key value by rw [entry, keyDir, List.append_assoc]]
    simp only [if_true, run_present, EStateM.run_ite, EStateM.run_bind, EStateM.run_pure,
      run_pathText hhex, hhex.components_shardText]
    rfl
  rcases hslot with hnone | hlink
  · have hmissing := FileTree.resolve_of_missing hlinks.avoidDirs hvalid.plain (hentry.trans hnone)
    obtain ⟨after, hafter, hgetAfter⟩ := run_createNode (ε := Exception) (.link (store.block value))
      (show Plain (store.keyDir key ++ [toHex (store.sha.hash value)]) from hvalid.plain)
      (by rw [hget, if_pos (List.prefix_refl _)]) (hentry.trans hnone) hhex.validName
    refine ⟨after, ?_, fun path => ?_⟩
    · rw [hrun, hmissing, createSymlink, EStateM.run_bind, entry, hafter]
      rfl
    · rw [hgetAfter, hget]
      rfl
  · have hfound := FileTree.resolve_of_link hvalid.plain (hentry.trans hlink)
      (store.validPath_block value).plain
      (by rw [hget, if_neg (show ¬ store.block value <+: store.keyDir key from
        store.not_data_prefix_link _ _), hblock])
    refine ⟨made, by rw [hrun, hfound]; rfl, fun path => ?_⟩
    rw [hget]
    by_cases hpath : path = store.entry key value
    · rw [if_pos hpath, hpath, if_neg (entry_not_above store key value), hlink]
    · rw [if_neg hpath]

/-- Putting a value under a hashed key stores its block and links it. -/
theorem run_kvPut {key value : Bytes} (hsound : Sound store world.tree)
    (hkey : HexId (validateKey store.sha key))
    (hfree : ∀ above, above <+: store.keyDir key →
      world.tree.get above = none ∨ world.tree.get above = some .dir)
    (hslot : world.tree.get (store.entry key value) = none ∨
      world.tree.get (store.entry key value) = some (.link (store.block value))) :
    ∃ middle after, (store.kvPut key value).run world = .ok true after ∧
      Sound store after.tree ∧ Stored (store.block value) value world.tree middle ∧
      Linked store key value middle after.tree := by
  obtain ⟨middle, hstore, hstored⟩ := run_storeBlock hsound value
  have hsound' := hsound.of_stored hstored
  have hfree' : ∀ above, above <+: store.keyDir key →
      middle.tree.get above = none ∨ middle.tree.get above = some .dir := by
    intro above habove
    rcases prefix_append_cases habove with ⟨tail, htail⟩ | ⟨rest, rfl, -⟩
    · exact Or.inr (FileTree.get_dir_of_append (htail ▸ hsound'.linkDir))
    · rw [get_link_of_stored hstored]
      exact hfree _ habove
  have hslot' : middle.tree.get (store.entry key value) =
      world.tree.get (store.entry key value) := by
    rw [entry, keyDir, List.append_assoc, get_link_of_stored hstored]
  obtain ⟨after, hlink, hlinked⟩ := run_putLink hsound' hkey hstored.get_file hfree'
    (by rw [hslot']; exact hslot)
  refine ⟨middle.tree, after, ?_, hsound'.of_linked hstored.get_file hlinked, hstored, hlinked⟩
  simp only [kvPut, EStateM.run_bind, hstore, if_true, hlink]

/-- Getting a hashed key that has no directory. -/
theorem run_kvGet_missing {key : Bytes} (platform : Platform) (hsound : Sound store world.tree)
    (hkey : HexId (validateKey store.sha key)) (hnone : world.tree.get (store.keyDir key) = none) :
    (store.kvGet platform key).run world = .ok (false, []) world := by
  have hresolve := FileTree.resolve_of_missing hsound.linksToFiles.avoidDirs
    (validPath_keyDir hkey).plain hnone
  rw [kvGet, EStateM.run_tryCatch_eq]
  simp only [EStateM.run_bind, run_pathText hkey, hkey.components_shardText, run_isDirectory]
  rw [show store.linkDir ++ shard (validateKey store.sha key) = store.keyDir key from rfl, hresolve]
  simp

/-- Getting a hashed key reads the first entry that the system lists. -/
theorem run_kvGet {key : Bytes} {name : Name} {rest : List Name} {target : FilePath} {content : Bytes}
    (platform : Platform) (hsound : Sound store world.tree)
    (hkey : HexId (validateKey store.sha key))
    (hdir : world.tree.get (store.keyDir key) = some .dir)
    (horder : platform.listing.order (world.tree.names (store.keyDir key)) = name :: rest)
    (hlink : world.tree.get (store.keyDir key ++ [name]) = some (.link target))
    (hfile : world.tree.get target = some (.file content)) :
    ∃ after, (store.kvGet platform key).run world =
        .ok (true, [(name, content.take (content.length % 2 ^ 32))]) after ∧
      after.tree = world.tree := by
  have hvalid := validPath_keyDir hkey
  have hname : ValidName name := FileTree.get_valid (by rw [hlink]; simp)
  have hplain : Plain (store.keyDir key ++ [name]) :=
    (validPath_append.2 ⟨hvalid, validPath_cons.2 ⟨hname, validPath_nil⟩⟩).plain
  have hresolve := FileTree.resolve_of_get hvalid.plain hdir (by simp)
  have hentry := FileTree.resolve_of_link hplain hlink (hsound.linksToFiles _ _ hlink).1 hfile
  have htext := hkey.components_shardText_append hname.2.2.1 hname.2.1
  have hlist := run_listDirectory (ε := Exception) platform.listing hvalid.plain hdir
  refine ⟨{ tree := world.tree,
            log := world.log ++ [store.keyDir key] ++ [store.keyDir key ++ [name]] }, ?_, rfl⟩
  have hread : ∀ log, (store.readEntry (shardText (validateKey store.sha key)) name).run
      { tree := world.tree, log := log } =
      .ok (true, [(name, content.take (content.length % 2 ^ 32))])
        { tree := world.tree, log := log ++ [store.keyDir key ++ [name]] } := by
    intro log
    rw [readEntry, htext, ← List.append_assoc,
      show store.linkDir ++ shard (validateKey store.sha key) = store.keyDir key from rfl]
    simp [hentry, fileSize, hfile, FileTree.content]
  rw [kvGet, EStateM.run_tryCatch_eq]
  simp only [EStateM.run_bind, run_pathText hkey, hkey.components_shardText, run_isDirectory]
  rw [show store.linkDir ++ shard (validateKey store.sha key) = store.keyDir key from rfl, hresolve,
    Option.bind_some, hdir]
  simp only [decide_true, if_true, EStateM.run_bind, hlist, horder, hread]

/-- Removing a hashed key that has a directory removes the directory. -/
theorem run_kvRemove {key : Bytes} (platform : Platform)
    (hkey : HexId (validateKey store.sha key))
    (hdir : world.tree.get (store.keyDir key) = some .dir) :
    ∃ after, (store.kvRemove platform key).run world = .ok true after ∧
      ∀ path, after.tree.get path =
        if store.keyDir key <+: path then none else world.tree.get path := by
  have hsplit : store.keyDir key = (store.linkDir ++ (shard (validateKey store.sha key)).dropLast) ++
      [(validateKey store.sha key).drop 4] := by
    rw [keyDir, List.append_assoc]
    rfl
  have hvalid := (validPath_keyDir hkey).plain
  have hkeyDir := hdir
  rw [hsplit] at hvalid hkeyDir
  obtain ⟨count, after, hrun, hget⟩ := run_removeAll (ε := Exception) hvalid hkeyDir
  rw [← hsplit] at hrun hget
  refine ⟨after, ?_, hget⟩
  simp only [kvRemove, EStateM.run_bind, run_pathText hkey, removeAllText,
    hkey.zero_not_mem_shardText, false_and, if_false, hkey.components_shardText]
  rw [show store.linkDir ++ shard (validateKey store.sha key) = store.keyDir key from rfl]
  simp [hrun]

/-- Removing a hashed key that has no directory throws. -/
theorem run_kvRemove_missing {key : Bytes} (platform : Platform)
    (hsound : Sound store world.tree) (hkey : HexId (validateKey store.sha key))
    (hnone : world.tree.get (store.keyDir key) = none) :
    ∃ after, (store.kvRemove platform key).run world = .error .filesystemError after ∧
      after.tree = world.tree := by
  have hplain := (validPath_keyDir hkey).plain
  have hremove := run_removeAll_missing (ε := Exception) hsound.linksToFiles hplain hnone
  refine ⟨{ tree := world.tree, log := world.log ++ [store.keyDir key] ++ [store.keyDir key] }, ?_,
    rfl⟩
  have hlist : (listDirectory platform.listing (store.keyDir key) : Storage (List Name)).run
      { world with log := world.log ++ [store.keyDir key] } = _ :=
    run_listDirectory_missing platform.listing hsound.linksToFiles hplain hnone
  simp only [kvRemove, EStateM.run_bind, run_pathText hkey, removeAllText,
    hkey.zero_not_mem_shardText, false_and, if_false, hkey.components_shardText]
  rw [show store.linkDir ++ shard (validateKey store.sha key) = store.keyDir key from rfl]
  simp [hremove, hlist]
  rfl

end Calls

/-! ## The empty store -/

/-- A tree in which the two directories of the store are there and empty, and no links are. -/
structure Initial (store : FFStore) (tree : FileTree) : Prop where
  linkDir : tree.get store.linkDir = some .dir
  dataDir : tree.get store.dataDir = some .dir
  noEntries : ∀ rest, rest ≠ [] → tree.get (store.linkDir ++ rest) = none
  noBlocks : ∀ rest, rest ≠ [] → tree.get (store.dataDir ++ rest) = none
  noLinks : ∀ path target, tree.get path ≠ some (.link target)

/-- The empty store is sound. -/
theorem Initial.sound {tree : FileTree} (h : Initial store tree) : Sound store tree := by
  refine ⟨h.linkDir, ⟨h.dataDir, fun id above _ _ _ => ?_, fun id _ => ?_⟩,
    fun path target hlink => absurd hlink (h.noLinks path target)⟩
  · by_cases habove : above = []
    · exact Or.inr (by rw [habove, List.append_nil, h.dataDir])
    · exact Or.inl (h.noBlocks above habove)
  · exact Or.inl (h.noBlocks _ (by simp [shard]))

/-- The file system on which nothing but the two directories was made. -/
def fresh (store : FFStore) : World := freshDirs store.linkDir store.dataDir

/-- The nodes of the fresh store. -/
theorem get_fresh (store : FFStore) (path : FilePath) :
    store.fresh.tree.get path =
      if path <+: store.linkDir ∨ path <+: store.dataDir then some .dir else none :=
  get_freshDirs store.linkDir_valid store.dataDir_valid path

/-- The fresh store is empty. -/
theorem initial_fresh (store : FFStore) : Initial store store.fresh.tree := by
  refine ⟨?_, ?_, fun rest hrest => ?_, fun rest hrest => ?_, fun path target => ?_⟩
  · rw [get_fresh, if_pos (Or.inl (List.prefix_refl _))]
  · rw [get_fresh, if_pos (Or.inr (List.prefix_refl _))]
  · rw [get_fresh, if_neg]
    rintro (hpre | hpre)
    · exact hrest (eq_nil_of_append_le hpre)
    · exact store.link_not_data ((List.prefix_append _ _).trans hpre)
  · rw [get_fresh, if_neg]
    rintro (hpre | hpre)
    · exact store.data_not_link ((List.prefix_append _ _).trans hpre)
    · exact hrest (eq_nil_of_append_le hpre)
  · rw [get_fresh]
    split <;> simp

/-- `initialise` with the default directory names: `ffstore/link` and `ffstore/raw` in the data
directory of the daemon. -/
def initialise (sha : Sha512) (datadir : FilePath) (hvalid : ValidPath datadir) : FFStore where
  sha := sha
  linkDir := datadir ++ [[102, 102, 115, 116, 111, 114, 101], [108, 105, 110, 107]]
  dataDir := datadir ++ [[102, 102, 115, 116, 111, 114, 101], [114, 97, 119]]
  linkDir_valid := validPath_append.2 ⟨hvalid, by decide⟩
  dataDir_valid := validPath_append.2 ⟨hvalid, by decide⟩
  link_not_data := by
    rw [List.prefix_append_right_inj]
    decide
  data_not_link := by
    rw [List.prefix_append_right_inj]
    decide

end FFStore

end AnarchNet
