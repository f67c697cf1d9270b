import AnarchNet.FFStore.Faults
import AnarchNet.Lib.FileBare
import AnarchNet.Lib.FileMaking
import AnarchNet.Lib.PathMax

/-!
# When the flat-file store throws

Each call of the store returns in the trees of a kind and throws in all others. The keys are
arbitrary, so their path texts may be longer than a system takes, and the tree may hold anything
that a key with `..` components put there. But every link is named by the hash of a value and leads
to the block of that value: this is `HashLinks`, which no call breaks. `ends_kvPutWithin_iff`,
`run_kvRemoveWithin_of_removed` and `run_kvGetWithin_listed` say when the three calls return.
-/

namespace AnarchNet

open FileSystem EStateM

namespace FFStore

variable {store : FFStore} {world : World} {tree : FileTree} {key value : Bytes}

/-! ## The calls of a system with a longest path

The path of a block is taken to be short enough: it ends in a hash. -/

/-- The second half of `kv_put`. -/
def putLinkWithin (store : FFStore) (key hash : Bytes) : Storage Bool := do
  let text ← pathText key
  let home := store.linkDir ++ components (removeFilename (text ++ [slash, 120]))
  if ← within home (ensureDirectory home) then
    let symlink := store.linkDir ++ components (text ++ slash :: hash)
    if ← within symlink (present symlink) then return true
    else do
      let target ← pathText hash
      createSymlink (store.dataDir ++ components target) symlink
      return true
  else return false

/-- `kv_put`. -/
def kvPutWithin (store : FFStore) (givenKey value : Bytes) : Storage Bool := do
  let key := validateKey store.sha givenKey
  let hash := toHex (store.sha.hash value)
  if ← store.storeBlock value then store.putLinkWithin key hash
  else return false

/-- `kv_get`. A stream does not open a path that is too long. -/
def kvGetWithin (store : FFStore) (platform : Platform) (givenKey : Bytes) :
    Storage (Bool × KvResMap) :=
  let key := validateKey store.sha givenKey
  let lookUp : Storage (Bool × KvResMap) := do
    let text ← pathText key
    let dir := store.linkDir ++ components text
    if ← within dir (isDirectory dir) then
      match ← listDirectory platform.listing dir with
      | [] => platform.flowed
      | name :: _ =>
          if TooLong (store.linkDir ++ components (text ++ slash :: name)) then return (false, [])
          else store.readEntry text name
    else return (false, [])
  tryCatch lookUp fun exception =>
    match exception with
    | .filesystemError => return (false, [])
    | other => throw other

/-- `remove_all` comes to a text that is too long: that of the path or one below it. Behind a zero
byte no entry has a text of its own. -/
def GivesUp (store : FFStore) (tree : FileTree) (text : Bytes) : Prop :=
  let path := store.linkDir ++ components text
  TooLong path ∨ (0 : UInt8) ∉ text ∧ ∃ found ∈ tree.locate path, tree.LongBelow path found

/-- `GivesUp` is made of decidable parts. -/
instance (store : FFStore) (tree : FileTree) (text : Bytes) : Decidable (store.GivesUp tree text) :=
  inferInstanceAs (Decidable (_ ∨ _))

/-- `kv_remove`. Where `remove_all` gives up, what it came to before is gone. -/
def kvRemoveWithin (store : FFStore) (platform : Platform) (givenKey : Bytes) : Storage Bool := do
  let text ← pathText (validateKey store.sha givenKey)
  let path := store.linkDir ++ components text
  let world ← get
  if store.GivesUp world.tree text then do
    record path
    match world.tree.locate path with
    | none => throw .filesystemError
    | some found => do
        setTree (world.tree.removeUntil platform.listing pathMax path found).1
        throw .filesystemError
  else store.kvRemove platform givenKey

/-! ## Links and blocks -/

/-- Links are named by hashes and lead to blocks, and none lies above the data directory. -/
structure HashLinks (store : FFStore) (tree : FileTree) : Prop where
  links : ∀ path target, tree.get path = some (.link target) →
    ∃ dir value, path = dir ++ [store.linkName value] ∧ target = store.block value
  base : tree.Unlinked store.dataDir

/-- Where no link is new. -/
theorem HashLinks.mono {after : FileTree} (h : HashLinks store tree)
    (hold : ∀ path target, after.get path = some (.link target) →
      tree.get path = some (.link target)) : HashLinks store after :=
  ⟨fun path target hlink => h.links path target (hold path target hlink),
    fun stage hstage target hlink => h.base stage hstage target (hold stage target hlink)⟩

/-- Where only directories are new. -/
theorem HashLinks.of_grows {after : FileTree} (h : HashLinks store tree)
    (hgrows : FileTree.Grows (fun _ node => node = .dir) tree after) : HashLinks store after := by
  refine h.mono fun path target hlink => ?_
  rcases hgrows.get path with hold | ⟨-, node, hnode, hdir⟩
  · exact hold ▸ hlink
  · rw [hnode, hdir] at hlink
    cases hlink

/-- The path of a block is plain. -/
theorem plain_block (store : FFStore) (value : Bytes) : Plain (store.block value) :=
  ((store.sha.hexId value).validPath store.dataDir_valid).plain

/-- No link lies on the path of a block. -/
theorem HashLinks.unlinked_block (h : HashLinks store tree) (value : Bytes) :
    tree.Unlinked (store.block value) := by
  intro stage hstage target hlink
  rcases prefix_append_cases hstage with hbase | ⟨rest, rfl, hrest⟩
  · exact h.base stage hbase target hlink
  · obtain ⟨dir, other, hpath, -⟩ := h.links _ target hlink
    rcases List.eq_nil_or_concat rest with rfl | ⟨front, last, rfl⟩
    · rw [List.append_nil] at hlink
      exact h.base store.dataDir List.prefix_rfl target hlink
    · -- a name on the path of a block is shorter than a hash
      rw [List.concat_eq_append, ← List.append_assoc] at hpath
      have hname : last = store.linkName other := by simpa using (List.append_inj' hpath rfl).2
      have hmem : last ∈ shard (store.linkName value) := hrest.subset (by simp)
      have hlength : last.length = 128 := hname ▸ (store.sha.hexId other).length
      have hvalue := (store.sha.hexId value).length
      rw [shard, List.mem_cons, List.mem_cons, List.mem_singleton] at hmem
      rcases hmem with rfl | rfl | rfl <;> simp [hvalue] at hlength

/-- The directory of a block and the name of the block in it. -/
theorem block_eq_snoc (store : FFStore) (value : Bytes) :
    store.block value = store.blockHome value ++ [(store.linkName value).drop 4] := by
  rw [blockHome, (store.sha.hexId value).components_removeFilename, List.append_assoc,
    ← shard_eq_snoc, block]

/-- A block that is opened for writing is opened at its path. -/
theorem HashLinks.opened_block {opened : FileTree} {file : FilePath} (h : HashLinks store tree)
    (hopened : tree.opened (store.block value) = some (opened, file)) :
    file = store.block value ∧ opened.get (store.block value) = some (.file []) ∧
      HashLinks store opened := by
  have hlinks : HashLinks store opened :=
    h.mono fun path target => ((FileTree.kept_of_opened hopened).links path target).1
  obtain ⟨hresolve, hget⟩ := FileTree.opened_eq_some hopened
  have hfile := (FileTree.resolve_of_unlinked (store.plain_block value) (hlinks.unlinked_block value)
    hresolve).1
  exact ⟨hfile, by rw [hget, hfile, if_pos rfl], hlinks⟩

/-! ## Putting -/

/-- The path that a link has under a key. -/
def symlink (store : FFStore) (key value : Bytes) : FilePath :=
  store.linkDir ++
    components (shardText (validateKey store.sha key) ++ slash :: store.linkName value)

/-- The path of a link begins with the directory of the key. -/
theorem home_prefix_symlink (store : FFStore) (key value : Bytes) :
    store.home key <+: store.symlink key value := by
  have hhex := store.sha.hexId value
  rw [symlink, entry_path store key (hhex.not_mem (show slash ∉ hexDigits by decide))
    (hhex.not_mem (show (0 : UInt8) ∉ hexDigits by decide))]
  split
  · exact store.home_prefix key
  · exact (store.home_prefix key).trans (List.prefix_append _ _)

/-- The directory of a key can be made in the tree, and a link can be in it: behind a zero byte the
link is the directory itself. No text is too long. The link is not tried where the last component of
the directory turns out to be there when it is to be made, unless the value is put again. -/
def LinkFits (store : FFStore) (again : Bool) (tree : FileTree) (key value : Bytes) : Prop :=
  ¬ TooLong (store.home key) ∧ ∃ made new, tree.ensured (store.home key) = some (made, new) ∧
    (new = true ∨ again = true → ¬ TooLong (store.symlink key value) ∧
      ((0 : UInt8) ∈ validateKey store.sha key ∨
        (made.resolve (store.home key)).bind made.get = some .dir))

/-- A value can be put under a key, once or again: the directory of its block can be made and, when
the block was stored, the directory of the key. -/
def PutFits (store : FFStore) (again : Bool) (tree : FileTree) (key value : Bytes) : Prop :=
  ∃ made new, tree.ensured (store.blockHome value) = some (made, new) ∧
    ∀ opened file, made.opened (store.block value) = some (opened, file) →
      LinkFits store again (opened.write file value) key value

/-- Storing a block fails, does nothing but make directories, or leaves the content in its file. -/
theorem run_storeBlock_cases (h : HashLinks store world.tree) (value : Bytes) :
    (world.tree.ensured (store.blockHome value) = none ∧
        ∃ last, (store.storeBlock value).run world = .error .filesystemError last) ∨
      (∃ made new log, world.tree.ensured (store.blockHome value) = some (made, new) ∧
        made.opened (store.block value) = none ∧
        (store.storeBlock value).run world = .ok false ⟨made, log⟩) ∨
      ∃ made new opened log, world.tree.ensured (store.blockHome value) = some (made, new) ∧
        made.opened (store.block value) = some (opened, store.block value) ∧
        (store.storeBlock value).run world =
          .ok true ⟨opened.write (store.block value) value, log⟩ := by
  have hhex := store.sha.hexId value
  have hblock : store.dataDir ++ components (shardText (store.linkName value)) =
      store.block value := by rw [hhex.components_shardText, block]
  simp only [storeBlock, run_bind, run_pathText hhex, openBlock]
  rw [show store.dataDir ++ components (removeFilename (shardText (toHex (store.sha.hash value)))) =
    store.blockHome value from rfl]
  cases hensured : world.tree.ensured (store.blockHome value) with
  | none =>
      obtain ⟨last, hrun⟩ := run_ensureDirectory_of_not_ensured (ε := Exception) hensured
      exact Or.inl ⟨rfl, last, by rw [hrun]; rfl⟩
  | some ensured =>
      obtain ⟨made, new⟩ := ensured
      obtain ⟨log, hrun⟩ := run_ensureDirectory_of_ensured (ε := Exception) hensured
      have hnew : new = true := by
        have hunlinked := h.unlinked_block value
        have hplain := store.plain_block value
        rw [block_eq_snoc] at hunlinked hplain
        refine FileTree.new_of_ensured hensured (fun name hname => hplain name (by simp [hname]))
          (fun stage hstage => hunlinked stage (hstage.trans (List.prefix_append _ _))) ?_
        rw [blockHome, hhex.components_removeFilename, shard]
        simp
      rw [hrun]
      simp only [hnew, if_true, hblock, run_openOut_eq]
      cases hopened : made.opened (store.block value) with
      | none => exact Or.inr (Or.inl ⟨made, true, _, rfl, hopened, rfl⟩)
      | some opened =>
          obtain ⟨opened, file⟩ := opened
          obtain ⟨rfl, hfile, -⟩ :=
            (h.of_grows (FileTree.grows_ensured hensured)).opened_block hopened
          refine Or.inr (Or.inr ⟨made, true, opened, log ++ [store.block value], rfl, hopened, ?_⟩)
          have hcontent : opened.content (store.block value) = some [] := by
            simp [FileTree.content, hfile]
          simp [writeAt, hcontent, overlay_nil]

/-- Once the directory of the key is there, a block that is stored can be linked exactly if the
directory is one, or the key holds a zero byte. -/
theorem ends_linkBlock_iff (world : World) (h : HashLinks store world.tree)
    (hblock : ∃ content, world.tree.get (store.block value) = some (.file content))
    (hthere : (world.tree.resolve (store.home key)).isSome) :
    Ends (store.linkBlock key (store.linkName value)) world ↔
      (0 : UInt8) ∈ validateKey store.sha key ∨
        (world.tree.resolve (store.home key)).bind world.tree.get = some .dir := by
  have hhex := store.sha.hexId value
  have hslash : slash ∉ store.linkName value := hhex.not_mem (by decide)
  have hzeroName : (0 : UInt8) ∉ store.linkName value := hhex.not_mem (by decide)
  obtain ⟨reached, hreached⟩ := Option.isSome_iff_exists.1 hthere
  obtain ⟨count, hcount, hnone⟩ := store.place_eq_home key
  simp only [Ends, linkBlock, run_bind, run_present, entry_path store key hslash hzeroName]
  by_cases hzero : (0 : UInt8) ∈ validateKey store.sha key
  · -- the path is cut at the zero byte, so it is the directory, which is there
    have hplace : store.place key = store.home key := by
      rw [hcount, hnone hzero, List.replicate_zero, List.append_nil]
    rw [if_pos hzero, hplace, hthere]
    exact iff_of_true ⟨true, world, rfl⟩ (Or.inl hzero)
  rw [if_neg hzero, hreached, Option.bind_some, or_iff_right hzero]
  by_cases hdir : world.tree.get reached = some .dir
  · refine iff_of_true ?_ hdir
    have hplace : world.tree.resolve (store.place key) = some reached := by
      rw [hcount, FileTree.resolve_append_slashes hreached hdir]
    have hentry : world.tree.resolve (store.place key ++ [store.linkName value]) =
        world.tree.walk (world.tree.follow 40) reached [store.linkName value] := by
      rw [FileTree.resolve, FileTree.walk_append hplace hdir]
    have hname := hhex.validName.1
    rw [hentry, FileTree.walk, if_neg hname.1, if_neg hname.2]
    cases hnode : world.tree.get (reached ++ [store.linkName value]) with
    | none =>
        obtain ⟨more, hadded⟩ := FileTree.added_of_resolve (.link (store.block value)) hplace hdir hnode
          hhex.validName
        refine ⟨true, { tree := more, log := world.log ++ [store.place key ++ [store.linkName value]] },
          ?_⟩
        simp only [Option.isSome_none, Bool.false_eq_true, if_false, run_bind, run_pathText hhex,
          hhex.components_shardText, createSymlink, run_createNode_eq]
        rw [show store.dataDir ++ shard (toHex (store.sha.hash value)) = store.block value from rfl,
          hadded]
        rfl
    | some node =>
        cases node with
        | dir => exact ⟨true, world, by simp [FileTree.walk]⟩
        | file content => exact ⟨true, world, by simp⟩
        | link target =>
            -- a link of that name leads to the block
            obtain ⟨dir, other, hpath, rfl⟩ := h.links _ _ hnode
            obtain ⟨-, hname⟩ := List.append_inj' hpath rfl
            have hother : store.block other = store.block value :=
              congrArg (fun name => store.dataDir ++ shard name) (List.singleton_inj.1 hname).symm
            obtain ⟨content, hcontent⟩ := hblock
            have hfollow : world.tree.follow 40 (store.block value) = some (store.block value) :=
              FileTree.walk_of_get [] (store.plain_block value) hcontent (by simp)
            exact ⟨true, world, by simp [hother, hfollow]⟩
  · refine iff_of_false ?_ hdir
    rintro ⟨linked, last, hrun⟩
    have hplace : (world.tree.resolve (store.place key)).bind world.tree.get ≠ some .dir := by
      rw [hcount]
      by_cases hslashes : List.replicate count ([] : Name) = []
      · rw [hslashes, List.append_nil, hreached]
        exact hdir
      · rw [FileTree.resolve_behind_file hreached hdir hslashes]
        simp
    have hslot := FileTree.slot_eq_none (store.linkName value) hplace
    have hentry : world.tree.resolve (store.place key ++ [store.linkName value]) = none := by
      rw [hcount, List.append_assoc]
      exact FileTree.resolve_behind_file hreached hdir (by simp)
    simp only [hentry, Option.isSome_none, Bool.false_eq_true, if_false, run_bind,
      run_pathText hhex, createSymlink, run_createNode_eq, FileTree.added, hslot,
      Option.bind_none] at hrun
    cases hrun

/-- `kv_put` makes the directory of the key and then links the block, where no text is too long. -/
theorem run_putLinkWithin_eq (store : FFStore) (key value : Bytes) (world : World) :
    (store.putLinkWithin (validateKey store.sha key) (store.linkName value)).run world =
      (within (store.home key) (ensureDirectory (store.home key)) >>= fun made =>
        if made = true then
          within (store.symlink key value) (store.linkBlock key (store.linkName value))
        else return false : Storage Bool).run world := by
  simp only [putLinkWithin, run_bind, run_pathText_validateKey, within_bind]
  rfl

/-- A block that is stored can be linked exactly if the link fits. -/
theorem ends_putLinkWithin_iff (key : Bytes) (world : World) (h : HashLinks store world.tree)
    (hblock : ∃ content, world.tree.get (store.block value) = some (.file content)) :
    Ends (store.putLinkWithin (validateKey store.sha key) (store.linkName value)) world ↔
      LinkFits store false world.tree key value := by
  rw [Ends, run_putLinkWithin_eq]
  by_cases hlong : TooLong (store.home key)
  · exact iff_of_false (not_ends_bind (run_within_of_tooLong hlong world))
      fun hfits => hfits.1 hlong
  rw [within_of_not hlong, run_bind, LinkFits, and_iff_right hlong]
  cases hensured : world.tree.ensured (store.home key) with
  | none =>
      obtain ⟨last, hrun⟩ := run_ensureDirectory_of_not_ensured (ε := Exception) hensured
      simp [hrun]
  | some ensured =>
      obtain ⟨made, new⟩ := ensured
      obtain ⟨log, hrun⟩ := run_ensureDirectory_of_ensured (ε := Exception) hensured
      rw [hrun]
      cases new with
      | false => exact iff_of_true ⟨false, _, rfl⟩ ⟨made, false, rfl, by simp⟩
      | true =>
          have hgrows := FileTree.grows_ensured hensured
          obtain ⟨content, hcontent⟩ := hblock
          have hlink := ends_linkBlock_iff ⟨made, log⟩ (h.of_grows hgrows)
            ⟨content, hgrows.get_of_some hcontent⟩ (FileTree.resolve_ensured hensured)
          refine (ends_within_iff _).trans ?_
          rw [hlink]
          simp

/-- Storing a block that was opened leaves its file there. -/
theorem HashLinks.stored {opened : FileTree} {file : FilePath} (h : HashLinks store tree)
    (hopened : tree.opened (store.block value) = some (opened, file)) :
    HashLinks store (opened.write (store.block value) value) ∧
      (opened.write (store.block value) value).get (store.block value) = some (.file value) := by
  obtain ⟨-, hfile, hlinks⟩ := h.opened_block hopened
  refine ⟨hlinks.mono fun path target => ((FileTree.kept_write opened _ _).links path target).1, ?_⟩
  rw [FileTree.get_write, if_pos rfl, hfile]
  rfl

/-- Where the block can be opened, the value fits exactly if its link does. -/
theorem putFits_iff_of_opened {made opened : FileTree} {new again : Bool}
    (hensured : tree.ensured (store.blockHome value) = some (made, new))
    (hopened : made.opened (store.block value) = some (opened, store.block value)) :
    PutFits store again tree key value ↔
      LinkFits store again (opened.write (store.block value) value) key value := by
  constructor
  · rintro ⟨other, flag, hother, hfits⟩
    obtain ⟨rfl, -⟩ := Prod.mk.inj (Option.some.inj (hensured.symm.trans hother))
    exact hfits opened (store.block value) hopened
  · refine fun hfits => ⟨made, new, hensured, fun other file hother => ?_⟩
    obtain ⟨rfl, rfl⟩ := Prod.mk.inj (Option.some.inj (hopened.symm.trans hother))
    exact hfits

/-- `kv_put` returns exactly if the value fits. -/
theorem ends_kvPutWithin_iff (h : HashLinks store world.tree) :
    Ends (store.kvPutWithin key value) world ↔ PutFits store false world.tree key value := by
  simp only [Ends, kvPutWithin, run_bind]
  rcases run_storeBlock_cases h value with ⟨hnone, last, hrun⟩ |
    ⟨made, new, log, hensured, hnone, hrun⟩ | ⟨made, new, opened, log, hensured, hopened, hrun⟩
  · simp [hrun, PutFits, hnone]
  · rw [hrun]
    exact iff_of_true ⟨false, _, rfl⟩ ⟨made, new, hensured, fun opened file hopened => by
      rw [hnone] at hopened
      cases hopened⟩
  · obtain ⟨hlinks, hfile⟩ := (h.of_grows (FileTree.grows_ensured hensured)).stored hopened
    rw [hrun, putFits_iff_of_opened hensured hopened]
    exact ends_putLinkWithin_iff key ⟨opened.write (store.block value) value, log⟩ hlinks
      ⟨value, hfile⟩

/-- Once the block is stored and the directory of the key is there, the value can be put unless the
path of its link is too long. -/
theorem putFits_stored_iff {content : Bytes} {again : Bool}
    (hfile : tree.get (store.block value) = some (.file content))
    (hthere : (tree.resolve (store.home key)).isSome)
    (hkey : (0 : UInt8) ∈ validateKey store.sha key ∨
      (tree.resolve (store.home key)).bind tree.get = some .dir) :
    PutFits store again tree key value ↔ ¬ TooLong (store.symlink key value) := by
  have hplain := store.plain_block value
  have hresolve := FileTree.resolve_of_get hplain hfile (by simp)
  have hhome : tree.resolve (store.blockHome value) = some (store.blockHome value) := by
    have hdir := hfile
    rw [block_eq_snoc] at hdir hplain
    exact FileTree.resolve_of_get (fun name hname => hplain name (by simp [hname]))
      (FileTree.get_parent (by rw [hdir]; simp)) (by simp)
  have hensured : tree.ensured (store.blockHome value) = some (tree, true) :=
    FileTree.ensured_of_resolve (by simp [hhome])
  have hopen : tree.opened (store.block value) =
      some (tree.write (store.block value) [], store.block value) := by
    simp [FileTree.opened, hresolve, hfile]
  rw [putFits_iff_of_opened hensured hopen, LinkFits]
  -- writing the block again changes neither where the path of the key leads nor what is there
  have hsame : ((tree.write (store.block value) []).write (store.block value) value).resolve
      (store.home key) = tree.resolve (store.home key) := by
    rw [FileTree.resolve_write, FileTree.resolve_write]
  have hready := FileTree.ensured_of_resolve (hsame ▸ hthere)
  constructor
  · rintro ⟨-, made, new, hmade, hfits⟩
    obtain ⟨rfl, rfl⟩ := Prod.mk.inj (Option.some.inj (hready.symm.trans hmade))
    exact (hfits (Or.inl rfl)).1
  · intro hshort
    have hhome : ¬ TooLong (store.home key) := fun hlong =>
      hshort (hlong.of_prefix (store.home_prefix_symlink key value))
    refine ⟨hhome, _, true, hready, fun _ => ⟨hshort, hkey.imp_right fun hdir => ?_⟩⟩
    rw [hsame]
    obtain ⟨reached, hreached, hnode⟩ := Option.bind_eq_some_iff.1 hdir
    rw [hreached, Option.bind_some]
    exact (FileTree.kept_write _ _ _).dirs _ ((FileTree.kept_write _ _ _).dirs _ hnode)

/-- Linking a block adds at most a link to it. -/
theorem grows_linkBlock (world : World) (value : Bytes)
    (hthere : (world.tree.resolve (store.home key)).isSome) :
    FileTree.Grows (fun path node => node = .link (store.block value) ∧
        ∃ dir, path = dir ++ [store.linkName value]) world.tree
      ((store.linkBlock key (store.linkName value)).run world).state.tree := by
  have hhex := store.sha.hexId value
  have hslash : slash ∉ store.linkName value := hhex.not_mem (by decide)
  have hzeroName : (0 : UInt8) ∉ store.linkName value := hhex.not_mem (by decide)
  obtain ⟨count, hcount, hnone⟩ := store.place_eq_home key
  simp only [linkBlock, run_bind, run_present, entry_path store key hslash hzeroName]
  by_cases hzero : (0 : UInt8) ∈ validateKey store.sha key
  · have hplace : store.place key = store.home key := by
      rw [hcount, hnone hzero, List.replicate_zero, List.append_nil]
    rw [if_pos hzero, hplace, hthere]
    exact .refl _
  rw [if_neg hzero]
  cases hresolve : world.tree.resolve (store.place key ++ [store.linkName value]) with
  | some reached => exact .refl _
  | none =>
      simp only [Option.isSome_none, Bool.false_eq_true, if_false, run_bind, run_pathText hhex,
        hhex.components_shardText, createSymlink, run_createNode_eq]
      rw [show store.dataDir ++ shard (toHex (store.sha.hash value)) = store.block value from rfl]
      cases hadded : world.tree.added (store.place key ++ [store.linkName value])
        (.link (store.block value)) with
      | none => exact .refl _
      | some more =>
          obtain ⟨⟨dir, name⟩, hslot, hcreate⟩ := Option.bind_eq_some_iff.1 hadded
          obtain ⟨hpath, -⟩ := FileTree.slot_eq_some hslot
          rw [List.dropLast_concat] at hpath
          obtain ⟨-, hname⟩ := List.append_inj' hpath rfl
          exact FileTree.grows_of_create hcreate ⟨rfl, dir, by rw [hname]⟩

/-- Linking a block that is stored breaks no link. -/
theorem HashLinks.linkBlock (h : HashLinks store world.tree)
    (hblock : world.tree.get (store.block value) ≠ none)
    (hthere : (world.tree.resolve (store.home key)).isSome) :
    HashLinks store ((store.linkBlock key (store.linkName value)).run world).state.tree := by
  have hgrows := grows_linkBlock world value hthere
  refine ⟨fun path target hlink => ?_, fun stage hstage target hlink => ?_⟩
  · rcases hgrows.get path with hold | ⟨-, node, hnode, rfl, dir, rfl⟩
    · exact h.links path target (hold ▸ hlink)
    · obtain rfl := Node.link.inj (Option.some.inj (hnode.symm.trans hlink))
      exact ⟨dir, value, rfl, rfl⟩
  · rcases hgrows.get stage with hold | ⟨hnone, -⟩
    · exact h.base stage hstage target (hold ▸ hlink)
    · -- what is above the block is there already
      obtain ⟨rest, hrest⟩ := hstage.trans (List.prefix_append _ (shard (store.linkName value)))
      change stage ++ rest = store.block value at hrest
      rw [← hrest] at hblock
      by_cases hnil : rest = []
      · rw [hnil, List.append_nil] at hblock
        exact hblock hnone
      · rw [FileTree.get_of_append hnil hblock] at hnone
        cases hnone

/-- Linking a block that is stored, with the directories for it, breaks no link. -/
theorem HashLinks.putLinkWithin (world : World) (h : HashLinks store world.tree)
    (hblock : world.tree.get (store.block value) ≠ none) :
    HashLinks store ((store.putLinkWithin (validateKey store.sha key) (store.linkName value)).run
      world).state.tree := by
  rw [run_putLinkWithin_eq]
  by_cases hlong : TooLong (store.home key)
  · rw [run_bind, run_within_of_tooLong hlong]
    exact h
  rw [within_of_not hlong, run_bind]
  have hkeeps : Keeps world ((ensureDirectory (store.home key) : Storage Bool).run world).state :=
    keeps_ensureDirectory world
  cases hrun : (ensureDirectory (store.home key) : Storage Bool).run world with
  | error fault last =>
      rw [hrun] at hkeeps
      exact h.mono hkeeps.oldLinks
  | ok made last =>
      rw [hrun] at hkeeps
      have hlast := h.mono hkeeps.oldLinks
      cases made with
      | false => exact hlast
      | true =>
          simp only [if_true]
          by_cases hlong : TooLong (store.symlink key value)
          · rw [run_within_of_tooLong hlong]
            exact hlast
          rw [within_of_not hlong]
          refine hlast.linkBlock (hkeeps.get_ne_none hblock) ?_
          cases hensured : world.tree.ensured (store.home key) with
          | none =>
              obtain ⟨_, herror⟩ := run_ensureDirectory_of_not_ensured (ε := Exception) hensured
              rw [herror] at hrun
              cases hrun
          | some ensured =>
              obtain ⟨tree, new⟩ := ensured
              obtain ⟨log, hok⟩ := run_ensureDirectory_of_ensured (ε := Exception) hensured
              rw [hok] at hrun
              cases hrun
              exact FileTree.resolve_ensured hensured

/-- `kv_put` breaks no link, also when it throws. -/
theorem HashLinks.kvPutWithin (h : HashLinks store world.tree) (key value : Bytes) :
    HashLinks store ((store.kvPutWithin key value).run world).state.tree := by
  rw [FFStore.kvPutWithin, run_bind]
  have hkeeps := store.keeps_storeBlock value world
  rcases run_storeBlock_cases h value with ⟨-, last, hrun⟩ | ⟨made, new, log, -, -, hrun⟩ |
    ⟨made, new, opened, log, hensured, hopened, hrun⟩
  · rw [hrun] at hkeeps ⊢
    exact h.mono hkeeps.oldLinks
  · rw [hrun] at hkeeps ⊢
    exact h.mono hkeeps.oldLinks
  · obtain ⟨hlinks, hfile⟩ := (h.of_grows (FileTree.grows_ensured hensured)).stored hopened
    rw [hrun]
    exact HashLinks.putLinkWithin ⟨opened.write (store.block value) value, log⟩ hlinks
      (by simp [hfile])

/-- After `kv_put` has returned, the value can be put again exactly if it could be put again from
the start. -/
theorem putFits_again_iff {stored : Bool} {last : World} (h : HashLinks store world.tree)
    (hrun : (store.kvPutWithin key value).run world = .ok stored last) :
    PutFits store false last.tree key value ↔ PutFits store true world.tree key value := by
  rw [FFStore.kvPutWithin, run_bind] at hrun
  rcases run_storeBlock_cases h value with ⟨-, middle, hstore⟩ |
    ⟨made, new, log, hensured, hnone, hstore⟩ | ⟨made, new, opened, log, hensured, hopened, hstore⟩
  · simp [hstore] at hrun
  · -- the block is not opened the second time either
    simp only [hstore, Bool.false_eq_true, if_false, run_pure, Result.ok.injEq] at hrun
    rw [← hrun.2]
    have hvacuous : ∀ again opened file, made.opened (store.block value) = some (opened, file) →
        LinkFits store again (opened.write file value) key value := by
      intro again opened file hopened
      rw [hnone] at hopened
      cases hopened
    exact iff_of_true ⟨made, true, FileTree.ensured_of_resolve (FileTree.resolve_ensured hensured),
      hvacuous false⟩ ⟨made, new, hensured, hvacuous true⟩
  · obtain ⟨hlinks, hfile⟩ := (h.of_grows (FileTree.grows_ensured hensured)).stored hopened
    simp only [hstore, if_true] at hrun
    obtain ⟨hhome, ready, fresh, hready, hkey⟩ :=
      (ends_putLinkWithin_iff key ⟨opened.write (store.block value) value, log⟩ hlinks
        ⟨value, hfile⟩).1 ⟨stored, last, hrun⟩
    obtain ⟨readyLog, hensure⟩ := run_ensureDirectory_of_ensured (ε := Exception) hready
    have hgrows := FileTree.grows_ensured hready
    have hthere := FileTree.resolve_ensured hready
    rw [run_putLinkWithin_eq, within_of_not hhome, run_bind, hensure] at hrun
    -- the link is all that is new behind the directory, which can hold it
    have hmore : (∃ kind, FileTree.Grows kind ready last.tree) ∧
        ((0 : UInt8) ∈ validateKey store.sha key ∨
          (ready.resolve (store.home key)).bind ready.get = some .dir) := by
      cases fresh with
      | false =>
          obtain ⟨-, rfl⟩ := Result.ok.inj hrun
          exact ⟨⟨fun _ _ => True, .refl _⟩, Or.inr (FileTree.resolve_ensured_false hready)⟩
      | true =>
          obtain ⟨hshort, hfits⟩ := hkey (Or.inl rfl)
          have hlink := grows_linkBlock ⟨ready, readyLog⟩ value hthere
          simp only [if_true, within_of_not hshort] at hrun
          rw [hrun] at hlink
          exact ⟨⟨_, hlink⟩, hfits⟩
    obtain ⟨⟨kind, hmore⟩, hfits⟩ := hmore
    have hkept : ∀ path node, ready.get path = some node → last.tree.get path = some node :=
      fun _ _ => hmore.get_of_some
    obtain ⟨reached, hreached⟩ := Option.isSome_iff_exists.1 hthere
    have hresolve := FileTree.resolve_of_more hkept hreached
    have hlast : PutFits store false last.tree key value ↔ ¬ TooLong (store.symlink key value) := by
      refine putFits_stored_iff (hkept _ _ (hgrows.get_of_some hfile)) (by simp [hresolve])
        (hfits.imp_right fun hdir => ?_)
      rw [hreached, Option.bind_some] at hdir
      rw [hresolve, Option.bind_some, hkept _ _ hdir]
    rw [hlast, putFits_iff_of_opened hensured hopened, LinkFits, and_iff_right hhome]
    constructor
    · exact fun hshort => ⟨ready, fresh, hready, fun _ => ⟨hshort, hfits⟩⟩
    · rintro ⟨other, flag, hother, hagain⟩
      exact (hagain (Or.inr rfl)).1

/-! ## Removing and getting -/

/-- The tree after `kv_remove`. It throws where the path of the key locates nothing, or where
`remove_all` cannot remove what it locates: the root, a path that ends in a dot, or a directory with
entries behind a zero byte. -/
def removed (store : FFStore) (tree : FileTree) (key : Bytes) : Option FileTree :=
  (tree.locate (store.place key)).bind fun found =>
    if EndsInName (store.place key) ∧ found ≠ [] ∧
        ¬ ((0 : UInt8) ∈ validateKey store.sha key ∧ tree.names found ≠ []) then
      some (tree.prune found)
    else none

/-- The tree after `kv_remove` where no text may be too long. -/
def removedWithin (store : FFStore) (tree : FileTree) (key : Bytes) : Option FileTree :=
  if store.GivesUp tree (shardText (validateKey store.sha key)) then none
  else store.removed tree key

/-- `kv_remove` returns true and leaves the tree without what it removed. -/
theorem run_kvRemove_of_removed (platform : Platform) {cleared : FileTree}
    (h : store.removed world.tree key = some cleared) :
    ∃ log, (store.kvRemove platform key).run world = .ok true ⟨cleared, log⟩ := by
  obtain ⟨found, hlocate, hcleared⟩ := Option.bind_eq_some_iff.1 h
  split at hcleared
  · next hfits =>
      obtain ⟨hends, hroot, hzero⟩ := hfits
      obtain ⟨node, hnode⟩ := Option.ne_none_iff_exists'.1 (FileTree.get_ne_none_of_locate hlocate)
      obtain ⟨count, hrun⟩ := run_removeAll_found (ε := Exception) hlocate hnode hends hroot
      refine ⟨world.log ++ [store.place key], ?_⟩
      rw [← Option.some.inj hcleared]
      simp only [kvRemove, run_bind, run_pathText_validateKey, removeAllText, run_get,
        zero_mem_shardText]
      rw [show store.linkDir ++ components (shardText (validateKey store.sha key)) =
        store.place key from rfl, if_neg (by simpa [hlocate] using hzero), hrun]
      simp
  · cases hcleared

/-- Where there is no such tree `kv_remove` throws. -/
theorem run_kvRemove_of_not_removed (platform : Platform)
    (h : store.removed world.tree key = none) :
    ∃ last, (store.kvRemove platform key).run world = .error .filesystemError last := by
  simp only [kvRemove, run_bind, run_pathText_validateKey, removeAllText, run_get,
    zero_mem_shardText]
  rw [show store.linkDir ++ components (shardText (validateKey store.sha key)) =
    store.place key from rfl]
  cases hlocate : world.tree.locate (store.place key) with
  | none =>
      -- nothing was removed, and the directory that is listed then is not there
      have hresolve := FileTree.resolve_eq_none_of_locate hlocate
      refine ⟨{ world with log := world.log ++ [store.place key] ++ [store.place key] }, ?_⟩
      simp [removeAll, hlocate, listDirectory, hresolve]
      rfl
  | some found =>
      rw [removed, hlocate, Option.bind_some] at h
      split at h
      · cases h
      · next hfits =>
          by_cases hzero : (0 : UInt8) ∈ validateKey store.sha key ∧ world.tree.names found ≠ []
          · exact ⟨{ world with log := world.log ++ [store.place key] }, by simp [hzero]⟩
          · have hall : ¬ (EndsInName (store.place key) ∧ found ≠ []) := fun hall =>
              hfits ⟨hall.1, hall.2, hzero⟩
            refine ⟨⟨world.tree.clear found, world.log ++ [store.place key]⟩, ?_⟩
            rw [if_neg (by simpa using hzero)]
            simp only [removeAll, run_bind, run_record, run_get, hlocate, if_neg hall, run_setTree,
              run_throw_eq]
            rfl

/-- Where `remove_all` gives up, `kv_remove` throws, and only nodes are missing. -/
theorem run_kvRemoveWithin_of_givesUp (platform : Platform)
    (h : store.GivesUp world.tree (shardText (validateKey store.sha key))) :
    ∃ last, (store.kvRemoveWithin platform key).run world = .error .filesystemError last ∧
      OldLinks world last := by
  simp only [kvRemoveWithin, run_bind, run_pathText_validateKey, run_get, if_pos h, run_record]
  cases hlocate : world.tree.locate (store.linkDir ++
      components (shardText (validateKey store.sha key))) with
  | none => exact ⟨_, rfl, oldLinks_of_tree_eq rfl⟩
  | some found => exact ⟨_, rfl, oldLinks_of_shrinks (FileTree.shrinks_removeUntil _ _ _ _ found)⟩

/-- Elsewhere the longest path does not matter. -/
theorem run_kvRemoveWithin_of_not_givesUp (platform : Platform)
    (h : ¬ store.GivesUp world.tree (shardText (validateKey store.sha key))) :
    (store.kvRemoveWithin platform key).run world = (store.kvRemove platform key).run world := by
  simp only [kvRemoveWithin, run_bind, run_pathText_validateKey, run_get, if_neg h]

/-- `kv_remove` returns true and leaves the tree without what it removed. -/
theorem run_kvRemoveWithin_of_removed (platform : Platform) {cleared : FileTree}
    (h : store.removedWithin world.tree key = some cleared) :
    ∃ log, (store.kvRemoveWithin platform key).run world = .ok true ⟨cleared, log⟩ := by
  rw [removedWithin] at h
  split at h
  · cases h
  · next hgives =>
      rw [run_kvRemoveWithin_of_not_givesUp platform hgives]
      exact run_kvRemove_of_removed platform h

/-- Where there is no such tree `kv_remove` throws. -/
theorem run_kvRemoveWithin_of_not_removed (platform : Platform)
    (h : store.removedWithin world.tree key = none) :
    ∃ last, (store.kvRemoveWithin platform key).run world = .error .filesystemError last := by
  rw [removedWithin] at h
  split at h
  · next hgives =>
      obtain ⟨last, hrun, -⟩ := run_kvRemoveWithin_of_givesUp platform hgives
      exact ⟨last, hrun⟩
  · next hgives =>
      rw [run_kvRemoveWithin_of_not_givesUp platform hgives]
      exact run_kvRemove_of_not_removed platform h

/-- `kv_remove` returns exactly if there is such a tree. -/
theorem ends_kvRemoveWithin_iff (store : FFStore) (platform : Platform) (key : Bytes)
    (world : World) : Ends (store.kvRemoveWithin platform key) world ↔
      (store.removedWithin world.tree key).isSome := by
  cases hremoved : store.removedWithin world.tree key with
  | some cleared =>
      obtain ⟨log, hrun⟩ := run_kvRemoveWithin_of_removed platform hremoved
      exact iff_of_true ⟨true, _, hrun⟩ rfl
  | none =>
      obtain ⟨last, hrun⟩ := run_kvRemoveWithin_of_not_removed platform hremoved
      simp [Ends, hrun]

/-- `kv_remove` makes no link, so it breaks none, also when it throws. -/
theorem HashLinks.kvRemoveWithin (h : HashLinks store world.tree) (platform : Platform)
    (key : Bytes) : HashLinks store ((store.kvRemoveWithin platform key).run world).state.tree := by
  by_cases hgives : store.GivesUp world.tree (shardText (validateKey store.sha key))
  · obtain ⟨last, hrun, hold⟩ := run_kvRemoveWithin_of_givesUp platform hgives
    rw [hrun]
    exact h.mono hold
  · have hold : Preserves OldLinks (store.kvRemove platform key) :=
      preserves_kvRemove platform (fun _ => oldLinks_of_tree_eq rfl) oldLinks_removeAll
        (oldLinks_listDirectory _) fun _ _ => oldLinks_remove
    rw [run_kvRemoveWithin_of_not_givesUp platform hgives]
    exact h.mono (hold world)

/-- An entry of a key leads to a file with the bytes that are read there. -/
theorem leadsTo_iff {name : Name} {content : Bytes} : LeadsTo store tree key name content ↔
    (tree.resolve (store.linkDir ++
      components (shardText (validateKey store.sha key) ++ slash :: name))).bind tree.content =
        some content := by
  rw [LeadsTo, Option.bind_eq_some_iff]
  refine exists_congr fun file => and_congr_right fun _ => ?_
  rw [FileTree.content]
  cases tree.get file with
  | none => simp
  | some node => cases node <;> simp

/-- The path of an entry of a key. -/
def entryPath (store : FFStore) (key : Bytes) (name : Name) : FilePath :=
  store.linkDir ++ components (shardText (validateKey store.sha key) ++ slash :: name)

/-- The pairs that `kv_get` reads. -/
def listed (store : FFStore) (platform : Platform) (tree : FileTree) (key : Bytes) : KvResMap :=
  match tree.resolve (store.place key) with
  | none => []
  | some dir =>
      if ¬ TooLong (store.place key) ∧ tree.get dir = some .dir then
        match platform.listing.order (tree.names dir) with
        | [] => []
        | name :: _ =>
            if TooLong (store.entryPath key name) then []
            else
              match (tree.resolve (store.entryPath key name)).bind tree.content with
              | none => []
              | some content => [(name, content.take (content.length % 2 ^ 32))]
      else []

/-- The control of `kv_get` flows off its end: the path of the key leads to an empty directory. -/
def FlowsOff (store : FFStore) (tree : FileTree) (key : Bytes) : Prop :=
  ¬ TooLong (store.place key) ∧ ∃ dir, tree.resolve (store.place key) = some dir ∧ tree.Bare dir

/-- `kv_get` comes back: its control does not flow off the end, or the platform comes back from
there. -/
def GetFits (store : FFStore) (platform : Platform) (tree : FileTree) (key : Bytes) : Prop :=
  FlowsOff store tree key → platform.flowOff.isSome

/-- `kv_get` changes nothing. It returns what it reads, or its control flows off the end. -/
theorem run_kvGetWithin_listed (store : FFStore) (platform : Platform) (key : Bytes)
    (world : World) :
    ∃ last, last.tree = world.tree ∧
      (FlowsOff store world.tree key ∧ store.listed platform world.tree key = [] ∧
          (store.kvGetWithin platform key).run world = platform.flowed.run last ∨
        ¬ FlowsOff store world.tree key ∧ ∃ found,
          (store.kvGetWithin platform key).run world =
            .ok (found, store.listed platform world.tree key) last ∧
          (found = false → store.listed platform world.tree key = [])) := by
  rw [kvGetWithin, EStateM.run_tryCatch_eq]
  simp only [EStateM.run_bind, run_pathText_validateKey]
  rw [show store.linkDir ++ components (shardText (validateKey store.sha key)) =
    store.place key from rfl, listed]
  by_cases hlong : TooLong (store.place key)
  · refine ⟨world, rfl, Or.inr ⟨fun hflow => hflow.1 hlong, false, ?_⟩⟩
    have hnil : (match world.tree.resolve (store.place key) with
        | none => ([] : KvResMap)
        | some _ => []) = [] := by cases world.tree.resolve (store.place key) <;> rfl
    simp only [run_within_of_tooLong hlong, hlong, not_true_eq_false, false_and, if_false, hnil]
    exact ⟨rfl, fun _ => trivial⟩
  simp only [within_of_not hlong, run_isDirectory, hlong, not_false_eq_true, true_and]
  by_cases hdir : (world.tree.resolve (store.place key)).bind world.tree.get = some .dir
  · obtain ⟨dir, hresolve, hnode⟩ := Option.bind_eq_some_iff.1 hdir
    have hflows : FlowsOff store world.tree key ↔ world.tree.names dir = [] := by
      simp [FlowsOff, hlong, hresolve, FileTree.Bare, hnode, FileTree.names_eq_nil_iff]
    simp only [hresolve, Option.bind_some, hnode, decide_true, if_true, EStateM.run_bind,
      listDirectory, run_record, EStateM.run_get]
    cases horder : platform.listing.order (world.tree.names dir) with
    | nil =>
        have hnil := platform.listing.perm (world.tree.names dir)
        rw [horder, List.nil_perm] at hnil
        refine ⟨{ world with log := world.log ++ [store.place key] }, rfl,
          Or.inl ⟨hflows.2 hnil, rfl, ?_⟩⟩
        rcases flowed_cases platform with ⟨found, -, hflow⟩ | ⟨-, hflow⟩
        · simp [hflow]
        · rw [hflow]
          rfl
    | cons name rest =>
        have hflow : ¬ FlowsOff store world.tree key := by
          rw [hflows]
          intro hnil
          have hperm := platform.listing.perm (world.tree.names dir)
          rw [horder, hnil] at hperm
          simp at hperm
        have hpath : ∀ name, store.linkDir ++ components (shardText (validateKey store.sha key) ++
            slash :: name) = store.entryPath key name := fun _ => rfl
        simp only [hpath]
        by_cases hentry : TooLong (store.entryPath key name)
        · refine ⟨{ world with log := world.log ++ [store.place key] }, rfl,
            Or.inr ⟨hflow, false, ?_⟩⟩
          simp [hentry]
        simp only [if_neg hentry]
        obtain ⟨after, htree, hcases⟩ := store.run_readEntry_cases key name
          { world with log := world.log ++ [store.place key] }
        rcases hcases with ⟨hnot, hrun⟩ | ⟨content, hleads, hrun⟩
        · have hnone : (world.tree.resolve (store.entryPath key name)).bind world.tree.content =
              none :=
            Option.eq_none_iff_forall_ne_some.2 fun content hsome =>
              hnot content (leadsTo_iff.2 hsome)
          simp only [hnone]
          rcases hrun with hrun | hrun
          · exact ⟨after, htree, Or.inr ⟨hflow, false, by simp [hentry, hrun], fun _ => trivial⟩⟩
          · exact ⟨after, htree, Or.inr ⟨hflow, false, by simp [hentry, hrun], fun _ => trivial⟩⟩
        · have hsome : (world.tree.resolve (store.entryPath key name)).bind world.tree.content =
            some content := leadsTo_iff.1 hleads
          simp only [hsome]
          exact ⟨after, htree, Or.inr ⟨hflow, true, by simp [hentry, hrun], by simp⟩⟩
  · have hflow : ¬ FlowsOff store world.tree key := by
      rintro ⟨-, dir, hresolve, hbare⟩
      exact hdir (by rw [hresolve, Option.bind_some, hbare.1])
    refine ⟨world, rfl, Or.inr ⟨hflow, false, ?_⟩⟩
    cases hresolve : world.tree.resolve (store.place key) with
    | none => simp
    | some dir =>
        rw [hresolve, Option.bind_some] at hdir
        simp [hdir]

/-- Where the path of the key is short, the longest path does not matter for `kv_put`. -/
theorem run_kvPutWithin_of_short (key value : Bytes) (world : World)
    (h : textLength (store.place key) + 129 < pathMax) :
    (store.kvPutWithin key value).run world = (store.kvPut key value).run world := by
  have hhex := store.sha.hexId value
  have hlink : ¬ TooLong (store.symlink key value) := by
    rw [symlink, entry_path store key (hhex.not_mem (show slash ∉ hexDigits by decide))
      (hhex.not_mem (show (0 : UInt8) ∉ hexDigits by decide)), TooLong]
    split
    · omega
    · rw [textLength_append, textLength_singleton, hhex.length]
      omega
  have hhome : ¬ TooLong (store.home key) := fun hlong =>
    hlink (hlong.of_prefix (store.home_prefix_symlink key value))
  simp only [kvPutWithin, kvPut, run_bind, run_ite, run_putLinkWithin_eq, run_putLink_eq,
    within_of_not hlink, within_of_not hhome]

/-- Nor does it for `kv_get`. -/
theorem run_kvGetWithin_of_short (platform : Platform) (key : Bytes) (world : World)
    (h : textLength (store.place key) + 256 < pathMax) :
    (store.kvGetWithin platform key).run world = (store.kvGet platform key).run world := by
  have hplace : ¬ TooLong (store.linkDir ++ components (shardText (validateKey store.sha key))) :=
    not_le.2 (show textLength (store.place key) < pathMax by omega)
  rw [kvGetWithin, kvGet, EStateM.run_tryCatch_eq, EStateM.run_tryCatch_eq]
  simp only [run_bind, run_pathText_validateKey, within_of_not hplace, run_isDirectory]
  by_cases hdir : (world.tree.resolve (store.linkDir ++
      components (shardText (validateKey store.sha key)))).bind world.tree.get = some .dir
  · obtain ⟨dir, hresolve, hnode⟩ := Option.bind_eq_some_iff.1 hdir
    simp only [hresolve, Option.bind_some, hnode, decide_true, if_true, run_bind, listDirectory,
      run_record, run_get]
    cases horder : platform.listing.order (world.tree.names dir) with
    | nil => rfl
    | cons name rest =>
        -- the entry is a name that the file system stores
        have hname : ValidName name := FileTree.get_valid (FileTree.mem_names.1
          ((platform.listing.perm _).mem_iff.1 (horder ▸ List.mem_cons_self)))
        have hentry : ¬ TooLong (store.linkDir ++
            components (shardText (validateKey store.sha key) ++ slash :: name)) := by
          rw [entry_path store key hname.2.1 hname.2.2.1, TooLong]
          split
          · omega
          · have hlength := hname.2.2.2
            rw [textLength_append, textLength_singleton]
            omega
        simp only [run_pure, hentry, if_false] <;> rfl
  · simp [hdir]

/-- `kv_get` returns exactly if it comes back. -/
theorem ends_kvGetWithin_iff (store : FFStore) (platform : Platform) (key : Bytes)
    (world : World) :
    Ends (store.kvGetWithin platform key) world ↔ GetFits store platform world.tree key := by
  obtain ⟨last, -, ⟨hflows, -, hrun⟩ | ⟨hflows, found, hrun, -⟩⟩ :=
    store.run_kvGetWithin_listed platform key world
  · rw [Ends, hrun, GetFits]
    rcases flowed_cases platform with ⟨found, hfound, hflow⟩ | ⟨hnone, hflow⟩
    · refine iff_of_true ⟨(found, []), last, ?_⟩ fun _ => hfound ▸ rfl
      rw [hflow, run_pure]
    · refine iff_of_false (by simp [hflow]) fun hfits => ?_
      have hsome := hfits hflows
      simp [hnone] at hsome
  · exact iff_of_true ⟨_, last, hrun⟩ fun hflow => absurd hflow hflows

end FFStore

end AnarchNet
