import AnarchNet.Blockstore.RoundTrip
import AnarchNet.FFStore.AnyKey

/-!
# Keys in the block store

`kv_put` keeps a value whose hash is the key as a unique block, and any other value in a directory
of its key, the mid directory, under the hash of the value. `kv_get` looks for a block first, through
a cache, and then for the first entry of the directory. `kv_remove` tries the two places in the same
order. The functions follow `blockstore.cc`.
-/

namespace AnarchNet

open FileSystem EStateM

/-- The block store with the data directory, which holds the unique directory and the mid directory,
and the size of the cache of blocks. The public directory does not lie in the mid directory, nor the
other way round. -/
structure KvBlockstore extends Blockstore where
  dataDir : FilePath
  uniqueDir_eq : uniqueDir = dataDir ++ [[117, 110, 105, 113, 117, 101]]
  mid_not_pub : ¬ dataDir ++ [[109, 105, 100]] <+: pubDir
  pub_not_mid : ¬ pubDir <+: dataDir ++ [[109, 105, 100]]
  blockCacheSize : Nat
  blockCacheSize_pos : 0 < blockCacheSize

/-- The cached blocks, the least recently used first. -/
abbrev BlockCache := List (Bytes × Bytes)

namespace KvBlockstore

variable (store : KvBlockstore)

/-- `_mid_dir`. -/
def midDir : FilePath := store.dataDir ++ [[109, 105, 100]]

/-- The branch of `kv_put` for a value whose hash is not the key. -/
def putMid (key hash value : Bytes) : Storage Bool := do
  let text ← pathText key
  if ← ensureDirectory (store.midDir ++ components (removeFilename (text ++ [slash, 120]))) then
    match ← openOut (store.midDir ++ components (text ++ slash :: hash)) with
    | none => return false
    | some file => do
        writeAt file 0 value
        return true
  else return false

/-- `kv_put`. -/
def kvPut (givenKey value : Bytes) : Storage Bool :=
  let key := validateKey store.sha givenKey
  let hash := toHex (store.sha.hash value)
  if key = hash then store.storeBlock value
  else store.putMid key hash value

/-- The body of the loop in `kv_get`. It returns in its first round. A directory cannot be opened at
its end. -/
def readEntry (text : Bytes) (name : Name) : Storage (Bool × KvResMap) := do
  match ← openIn (store.midDir ++ components (text ++ slash :: name)) with
  | none => return (false, [])
  | some file =>
      match ← readAll file with
      | none => return (false, [])
      | some cont => return (true, [(toHex (store.sha.hash cont), cont)])

/-- The second half of `kv_get`: the directory of the key. -/
def readMid (platform : Platform) (key : Bytes) : Storage (Bool × KvResMap) :=
  let lookUp : Storage (Bool × KvResMap) := do
    let text ← pathText key
    let dir := store.midDir ++ components text
    if ← isDirectory dir then
      match ← listDirectory platform.listing dir with
      | [] => platform.flowed
      | name :: _ => store.readEntry text name
    else return (false, [])
  tryCatch lookUp fun exception =>
    match exception with
    | .filesystemError => return (false, [])
    | other => throw other

/-- The cache of blocks: `operator()` and `insert` of `lru_cache_base`. A block that cannot be loaded
is not inserted. -/
def cachedBlock (cache : BlockCache) (bid : Bytes) : Storage (Bytes × BlockCache) :=
  match cache.lookup bid with
  | some block => return (block, cache.filter (·.1 ≠ bid) ++ [(bid, block)])
  | none => do
      let block ← store.loadBlock bid
      if cache.length = store.blockCacheSize then return (block, cache.tail ++ [(bid, block)])
      else return (block, cache ++ [(bid, block)])

/-- `kv_get` with a way to load unique blocks: the value returned, the result map and the cache
afterwards. -/
def kvGetBy (load : Bytes → Storage (Bytes × BlockCache)) (platform : Platform)
    (cache : BlockCache) (givenKey : Bytes) : Storage (Bool × KvResMap × BlockCache) :=
  let key := validateKey store.sha givenKey
  let unique : Storage (Bool × KvResMap × BlockCache) := do
    let (block, after) ← load key
    return (true, [(toHex (store.sha.hash block), block)], after)
  tryCatch unique fun exception =>
    match exception with
    | .fileNotFound => do
        let (found, res) ← store.readMid platform key
        return (found, res, cache)
    | other => throw other

/-- `kv_get`. -/
def kvGet (platform : Platform) (cache : BlockCache) (givenKey : Bytes) :
    Storage (Bool × KvResMap × BlockCache) :=
  store.kvGetBy (store.cachedBlock cache) platform cache givenKey

/-- `kv_get` with `load_block` in place of the cache. -/
def kvGetUncached (platform : Platform) (givenKey : Bytes) : Storage (Bool × KvResMap) := do
  let load := fun bid => do
    let block ← store.loadBlock bid
    return (block, [])
  let (found, res, _) ← store.kvGetBy load platform [] givenKey
  return (found, res)

/-- The loop of `kv_remove`: stop at the first entry that is not removed. -/
def removeEntries (text : Bytes) : List Name → Storage Bool
  | [] => return true
  | name :: rest => do
      if ← remove (store.midDir ++ components (text ++ slash :: name)) then
        removeEntries text rest
      else return false

/-- `kv_remove`. -/
def kvRemove (platform : Platform) (givenKey : Bytes) : Storage Bool := do
  let text ← pathText (validateKey store.sha givenKey)
  if ← remove (store.uniqueDir ++ components text) then return true
  else do
    let dir := store.midDir ++ components text
    let names ← listDirectory platform.listing dir
    if ← store.removeEntries text names then remove dir
    else return false

/-! ## Any key -/

variable {store}

/-- The path of a key in the unique directory. -/
def uniqueAt (store : KvBlockstore) (key : Bytes) : FilePath :=
  store.uniqueDir ++ components (shardText (validateKey store.sha key))

/-- The path of a key in the mid directory. -/
def midAt (store : KvBlockstore) (key : Bytes) : FilePath :=
  store.midDir ++ components (shardText (validateKey store.sha key))

/-- The mid directory has valid names. -/
theorem midDir_valid (store : KvBlockstore) : ValidPath store.midDir := by
  have h := store.uniqueDir_valid
  rw [store.uniqueDir_eq, validPath_append] at h
  exact validPath_append.2 ⟨h.1, by decide⟩

/-- Nothing in the mid directory lies in the unique one. -/
theorem not_unique_of_mid (store : KvBlockstore) {path : FilePath} (h : store.midDir <+: path) :
    ¬ store.uniqueDir <+: path := by
  intro hunique
  have heq : store.midDir = store.uniqueDir := by
    rw [store.uniqueDir_eq] at hunique
    rw [store.uniqueDir_eq]
    exact (List.prefix_of_prefix_length_le h hunique (by simp [midDir])).eq_of_length
      (by simp [midDir])
  rw [store.uniqueDir_eq, midDir] at heq
  exact absurd (List.append_cancel_left heq) (by decide)

/-- The path of a key either stays in the unique and in the mid directory on its whole way, or it
leads from both to the same place. -/
theorem uniqueAt_cases (store : KvBlockstore) (key : Bytes) :
    (store.uniqueDir <+: normal [] (store.uniqueAt key) ∧
      ∀ stage, stage <+: store.midAt key → ¬ store.uniqueDir <+: normal [] stage) ∨
      normal [] (store.uniqueAt key) = normal [] (store.midAt key) := by
  have hunique : normal [] store.uniqueDir = store.uniqueDir := by
    rw [normal_of_plain store.uniqueDir_valid.plain, List.nil_append]
  have hmid : ∀ stage, stage <+: store.midDir → normal [] stage = stage := by
    intro stage hstage
    obtain ⟨tail, htail⟩ := hstage
    rw [normal_of_plain fun name hname => store.midDir_valid.plain name
      (htail ▸ List.mem_append_left _ hname), List.nil_append]
  rw [uniqueAt, midAt, normal_append, normal_append, hunique, hmid _ (List.prefix_refl _),
    store.uniqueDir_eq, midDir]
  rcases normal_sibling store.dataDir (components (shardText (validateKey store.sha key))) with
    hstays | hsame
  · refine Or.inl ⟨?_, fun stage hstage hpre => ?_⟩
    · obtain ⟨rest, hrest⟩ := hstays _ (List.prefix_refl _)
      rw [hrest]
      exact ⟨rest, by simp⟩
    · rw [← store.uniqueDir_eq] at hpre
      rcases prefix_append_cases hstage with hstage | ⟨rest, rfl, hrest⟩
      · rw [hmid stage hstage] at hpre
        exact store.not_unique_of_mid (List.prefix_refl _) (hpre.trans hstage)
      · rw [normal_append, show store.dataDir ++ [[109, 105, 100]] = store.midDir from rfl,
          hmid _ (List.prefix_refl _)] at hpre
        obtain ⟨below, hbelow⟩ := hstays rest hrest
        rw [midDir, hbelow, List.append_cons] at hpre
        exact store.not_unique_of_mid (List.prefix_append _ _) hpre
  · exact Or.inr (hsame _ _)

/-- The path of an entry of a key: behind a zero byte it is the path of the key again. -/
theorem entry_path (store : KvBlockstore) (key : Bytes) {name : Bytes} (hslash : slash ∉ name)
    (hzero : (0 : UInt8) ∉ name) :
    store.midDir ++ components (shardText (validateKey store.sha key) ++ slash :: name) =
      if (0 : UInt8) ∈ validateKey store.sha key then store.midAt key
      else store.midAt key ++ [name] := by
  rw [components_append_name _ hslash hzero]
  simp only [zero_mem_shardText]
  split
  · rfl
  · rw [midAt, List.append_assoc]

/-- Removing the entries of a key without a zero byte is removing them by name. -/
theorem removeEntries_eq {key : Bytes} (hzero : (0 : UInt8) ∉ validateKey store.sha key)
    {names : List Name} (hvalid : ∀ name ∈ names, ValidName name) :
    store.removeEntries (shardText (validateKey store.sha key)) names =
      removeNamed (store.midAt key) names := by
  induction names with
  | nil => rfl
  | cons name names ih =>
      have hname := hvalid name (by simp)
      rw [removeEntries, removeNamed, entry_path store key hname.2.1 hname.2.2.1, if_neg hzero,
        ih fun other hother => hvalid other (by simp [hother])]

/-- Storing a block keeps what is there. -/
theorem keeps_storeBlock (value : Bytes) : Preserves Keeps (store.storeBlock value) := by
  refine Preserves.bind (FFStore.preserves_pathText _) fun text => ?_
  refine Preserves.bind (keeps_openBlock _ _) fun file => ?_
  cases file with
  | none => exact Preserves.pure false
  | some file => exact Preserves.bind (keeps_writeAt _ _ _) fun _ => Preserves.pure true

/-- Putting in the mid directory keeps what is there. -/
theorem keeps_putMid (key hash value : Bytes) : Preserves Keeps (store.putMid key hash value) := by
  refine Preserves.bind (FFStore.preserves_pathText _) fun text => ?_
  refine Preserves.bind keeps_ensureDirectory fun made => Preserves.ite (fun _ => ?_)
    fun _ => Preserves.pure false
  refine Preserves.bind keeps_openOut fun file => ?_
  cases file with
  | none => exact Preserves.pure false
  | some file => exact Preserves.bind (keeps_writeAt _ _ _) fun _ => Preserves.pure true

/-- Putting keeps what is there. -/
theorem keeps_kvPut (key value : Bytes) : Preserves Keeps (store.kvPut key value) :=
  Preserves.ite (fun _ => keeps_storeBlock value) fun _ => keeps_putMid _ _ value

/-! ## Hashed keys -/

/-- The mid directory of a hashed key. -/
def keyDir (store : KvBlockstore) (key : Bytes) : FilePath :=
  store.midDir ++ shard (validateKey store.sha key)

/-- The paths of a hashed key. -/
theorem midAt_eq_keyDir {key : Bytes} (h : HexId (validateKey store.sha key)) :
    store.midAt key = store.keyDir key := by
  rw [midAt, keyDir, h.components_shardText]

/-- The path of a hashed key in the unique directory. -/
theorem uniqueAt_eq {key : Bytes} (h : HexId (validateKey store.sha key)) :
    store.uniqueAt key = store.uniqueDir ++ shard (validateKey store.sha key) := by
  rw [uniqueAt, h.components_shardText]

/-- A sound tree in which the mid directory holds directories of keys, and these hold files. -/
structure KvSound (store : KvBlockstore) (tree : FileTree) : Prop
    extends Blockstore.Sound store.toBlockstore tree where
  midBase : tree.get store.midDir = some .dir
  midAbove : ∀ id above, HexId id → above <+: shard id →
    tree.get (store.midDir ++ above) = none ∨ tree.get (store.midDir ++ above) = some .dir
  midEntries : ∀ id name, HexId id → tree.get (store.midDir ++ shard id ++ [name]) = none ∨
    ∃ content, tree.get (store.midDir ++ shard id ++ [name]) = some (.file content)

/-- A change in the unique directory keeps a tree sound. -/
theorem KvSound.of_now {before after : FileTree} {map : Bytes → Option Bytes}
    (h : KvSound store before) (hnow : Blockstore.Now store.toBlockstore before after map) :
    KvSound store after := by
  have hmid : ∀ rest, after.get (store.midDir ++ rest) = before.get (store.midDir ++ rest) :=
    fun rest => hnow.outside _ (store.not_unique_of_mid (List.prefix_append _ _))
  refine ⟨hnow.sound, ?_, fun id above hid habove => ?_, fun id name hid => ?_⟩
  · simpa using (hmid []).trans (by simpa using h.midBase)
  · rw [hmid]
    exact h.midAbove id above hid habove
  · rw [List.append_assoc, hmid, ← List.append_assoc]
    exact h.midEntries id name hid

/-- Nothing in the public directory lies above something in the mid directory. -/
theorem not_above_mid (store : KvBlockstore) (rest path : FilePath) :
    ¬ store.pubDir ++ path <+: store.midDir ++ rest := by
  intro hpre
  have hpub := (List.prefix_append store.pubDir path).trans hpre
  rcases List.prefix_or_prefix_of_prefix hpub (List.prefix_append store.midDir rest) with h | h
  · exact store.pub_not_mid h
  · exact store.mid_not_pub h

/-- No path in the unique directory lies above something in the mid directory. -/
theorem unique_not_above_mid (store : KvBlockstore) (rest path : FilePath) :
    ¬ store.uniqueDir ++ path <+: store.midDir ++ rest := fun hpre =>
  store.not_unique_of_mid (List.prefix_append store.midDir rest)
    ((List.prefix_append _ _).trans hpre)

/-- An entry put in the directory of a key keeps a tree sound. -/
theorem KvSound.of_stored {before after : FileTree} {id : Bytes} {name : Name} {content : Bytes}
    (h : KvSound store before) (hid : HexId id)
    (hstored : Stored (store.midDir ++ shard id ++ [name]) content before after) :
    KvSound store after := by
  rw [List.append_assoc] at hstored
  have hunique : ∀ rest, after.get (store.uniqueDir ++ rest) =
      before.get (store.uniqueDir ++ rest) := fun rest =>
    hstored.get_other (store.unique_not_above_mid _ _)
  have hpub : ∀ rest, after.get (store.pubDir ++ rest) = before.get (store.pubDir ++ rest) :=
    fun rest => hstored.get_other (store.not_above_mid _ _)
  have hmid : ∀ rest, after.get (store.midDir ++ rest) =
      if rest = shard id ++ [name] then some (.file content)
      else if rest <+: shard id ++ [name] then some .dir
      else before.get (store.midDir ++ rest) := fun rest => by
    rw [hstored]
    simp only [List.append_cancel_left_eq, List.prefix_append_right_inj]
  refine ⟨⟨h.blocks.congr hunique, ?_, fun other hother => ?_, ?_, fun path target hlink => ?_⟩,
    ?_, fun other above hother habove => ?_, fun other entry hother => ?_⟩
  · simpa using (hpub []).trans (by simpa using h.pub)
  · rw [hpub]
    exact h.published other hother
  · refine Blockstore.linksToFiles_of_stored h.links hstored fun path old hfile hne hpre => ?_
    rcases prefix_append_cases hpre with ⟨tail, htail⟩ | ⟨rest, rfl, hrest⟩
    · rw [FileTree.get_dir_of_append (htail ▸ h.midBase)] at hfile
      simp at hfile
    · rcases List.prefix_concat_iff.1 hrest with rfl | hrest
      · exact hne rfl
      · rcases h.midAbove id rest hid hrest with hnode | hnode <;> simp [hnode] at hfile
  · exact h.apart path target (hstored.get_link hlink)
  · have hbase := hmid []
    rw [List.append_nil] at hbase
    rw [hbase, if_neg (by simp), if_pos List.nil_prefix]
  · rw [hmid, if_neg]
    · split
      · exact Or.inr rfl
      · exact h.midAbove other above hother habove
    · rintro rfl
      have hlength := habove.length_le
      simp [shard] at hlength
  · rw [List.append_assoc, hmid]
    split
    · exact Or.inr ⟨content, rfl⟩
    · next hne =>
        rw [if_neg fun hpre => hne (hpre.eq_of_length (by simp [shard])), ← List.append_assoc]
        exact h.midEntries other entry hother

section Calls

variable {world : World}

/-- Putting a value under a hashed key that is the hash of the value. -/
theorem run_kvPut_unique {key value : Bytes} (hsound : KvSound store world.tree)
    (hkey : validateKey store.sha key = store.idOf value) :
    ∃ after, (store.kvPut key value).run world = .ok true after ∧ KvSound store after.tree ∧
      Blockstore.Now store.toBlockstore world.tree after.tree (Blockstore.setId
        (store.view world.tree) (store.idOf value) (some value)) := by
  obtain ⟨after, hafter, hnow⟩ := Blockstore.run_storeBlock hsound.toSound value
  refine ⟨after, ?_, hsound.of_now hnow, hnow⟩
  rw [kvPut, if_pos (show validateKey store.sha key = toHex (store.sha.hash value) from hkey),
    hafter]

/-- Putting a value under a hashed key that is not the hash of the value. -/
theorem run_kvPut_mid {key value : Bytes} (hsound : KvSound store world.tree)
    (hhex : HexId (validateKey store.sha key)) (hkey : validateKey store.sha key ≠ store.idOf value) :
    ∃ after, (store.kvPut key value).run world = .ok true after ∧ KvSound store after.tree ∧
      Stored (store.keyDir key ++ [store.idOf value]) value world.tree after.tree := by
  have hname := store.hexId_idOf value
  have hvalid : ValidPath (store.keyDir key ++ [store.idOf value]) :=
    validPath_append.2 ⟨hhex.validPath store.midDir_valid,
      validPath_cons.2 ⟨hname.validName, validPath_nil⟩⟩
  have hparent := (validPath_append.1 hvalid).1
  obtain ⟨made, hmade, hlinks, hgetMade⟩ := run_ensureDirectory (ε := Exception) hsound.links
    hparent.plain (fun above habove => by
      rcases prefix_append_cases habove with ⟨tail, htail⟩ | ⟨rest, rfl, hrest⟩
      · exact Or.inr (FileTree.get_dir_of_append (htail ▸ hsound.midBase))
      · exact hsound.midAbove _ rest hhex hrest) hparent
  have hbelow : ¬ store.keyDir key ++ [store.idOf value] <+: store.keyDir key := fun hpre =>
    absurd (eq_nil_of_append_le hpre) (by simp)
  obtain ⟨opened, hopened, hgetOpened⟩ := run_openOut (ε := Exception) hlinks hvalid.plain
    (by rw [hgetMade, if_pos (List.prefix_refl _)])
    (by rw [hgetMade, if_neg hbelow]; exact hsound.midEntries _ _ hhex) (hvalid _ (by simp))
  obtain ⟨after, hafter, hget⟩ := run_writeAt (ε := Exception) 0 value
    (show opened.tree.get _ = some (.file []) by rw [hgetOpened, if_pos rfl])
  have hstored : Stored (store.keyDir key ++ [store.idOf value]) value world.tree after.tree := by
    intro path
    rw [hget, hgetOpened, hgetMade, overlay_nil]
    by_cases hpath : path = store.keyDir key ++ [store.idOf value]
    · rw [if_pos hpath, if_pos hpath]
    · rw [if_neg hpath, if_neg hpath, if_neg hpath]
      simp only [List.prefix_concat_iff, hpath, false_or]
  refine ⟨after, ?_, hsound.of_stored hhex hstored, hstored⟩
  rw [kvPut, if_neg (show ¬ validateKey store.sha key = toHex (store.sha.hash value) from hkey)]
  simp only [putMid, EStateM.run_bind, run_pathText hhex,
    hhex.removeFilename_shardText_append (show slash ∉ [(120 : UInt8)] by decide),
    hhex.components_shardText]
  rw [show store.midDir ++ shard (validateKey store.sha key) = store.keyDir key from rfl, hmade]
  simp only [if_true, EStateM.run_bind]
  rw [show store.midDir ++ components (shardText (validateKey store.sha key) ++
      slash :: toHex (store.sha.hash value)) = store.keyDir key ++ [store.idOf value] by
    rw [show toHex (store.sha.hash value) = store.idOf value from rfl,
      hhex.components_shardText_append (hname.not_mem (by decide)) (hname.not_mem (by decide)),
      keyDir, List.append_assoc], hopened]
  simp only [EStateM.run_bind, hafter]
  rfl

end Calls

end KvBlockstore

end AnarchNet
