import AnarchNet.Blocks

/-!
# The flat-file store

`FFStore` keeps every value once, as a raw block named by its hash, and every key as a directory
of links to the blocks of its values. The functions follow `ffstore.cc`: the same calls in the
same order, the same early returns, and exceptions that are caught only where the source catches
them.
-/

namespace AnarchNet

open FileSystem

/-- `KV_ResMap`: the pairs inserted, by key. -/
abbrev KvResMap := List (Bytes × Bytes)

/-- The two directories of an initialised store, and the hash function. The directories are
absolute paths, and neither lies in the other. -/
structure FFStore where
  sha : Sha512
  linkDir : FilePath
  dataDir : FilePath
  linkDir_valid : ValidPath linkDir
  dataDir_valid : ValidPath dataDir
  link_not_data : ¬ linkDir <+: dataDir
  data_not_link : ¬ dataDir <+: linkDir

/-- What the source leaves open: the order in which directories are listed, and the value that
`kv_get` yields when its control flows off the end of the function without a `return`, if it comes
back from there at all. -/
structure Platform where
  listing : Listing
  flowOff : Option Bool

/-- The end of `kv_get`, where there is no `return` and nothing was inserted in the result. -/
def Platform.flowed (platform : Platform) : Storage (Bool × KvResMap) :=
  match platform.flowOff with
  | some found => return (found, [])
  | none => throw .undefined

namespace FFStore

variable (store : FFStore)

/-- `store_block`. -/
def storeBlock (content : Bytes) : Storage Bool := do
  let hash := toHex (store.sha.hash content)
  let text ← pathText hash
  match ← openBlock store.dataDir text with
  | none => return false
  | some file => do
      writeAt file 0 content
      return true

/-- The second half of `kv_put`: the directory of the key and the link in it. -/
def putLink (key hash : Bytes) : Storage Bool := do
  let text ← pathText key
  if ← ensureDirectory (store.linkDir ++ components (removeFilename (text ++ [slash, 120]))) then
    let symlink := store.linkDir ++ components (text ++ slash :: hash)
    if ← present symlink then return true
    else do
      let target ← pathText hash
      createSymlink (store.dataDir ++ components target) symlink
      return true
  else return false

/-- `kv_put`. -/
def kvPut (givenKey value : Bytes) : Storage Bool := do
  let key := validateKey store.sha givenKey
  let hash := toHex (store.sha.hash value)
  if ← store.storeBlock value then store.putLink key hash
  else return false

/-- The body of the loop in `kv_get`. It returns in its first round. -/
def readEntry (text : Bytes) (name : Name) : Storage (Bool × KvResMap) := do
  let entry := store.linkDir ++ components (text ++ slash :: name)
  match ← openIn entry with
  | none => return (false, [])
  | some file => do
      -- `uint size = fs::file_size(p)` keeps 32 bits
      let size := (← fileSize entry) % 2 ^ 32
      let cont := ((← readAll file).getD []).take size
      return (true, [(name, cont)])

/-- `kv_get`: the value returned and the result map. -/
def kvGet (platform : Platform) (givenKey : Bytes) : Storage (Bool × KvResMap) := do
  let key := validateKey store.sha givenKey
  let lookUp : Storage (Bool × KvResMap) := do
    let text ← pathText key
    let dir := store.linkDir ++ components text
    if ← isDirectory dir then
      match ← listDirectory platform.listing dir with
      | [] => platform.flowed
      | name :: _ => store.readEntry text name
    else return (false, [])
  tryCatch lookUp fun exception =>
    match exception with
    | .filesystemError => return (false, [])
    | other => throw other

/-- `remove_all` of a path text below a directory. It appends the names of the entries to the
text, so behind a zero byte every entry is the directory itself again, and the call gives up once
no more directories can be opened. -/
def removeAllText (dir : FilePath) (text : Bytes) : Storage Nat := do
  let world ← get
  let path := dir ++ components text
  if (0 : UInt8) ∈ text ∧ (world.tree.locate path).any (world.tree.names · ≠ []) then do
    record path
    throw .filesystemError
  else removeAll path

/-- The loop of `kv_remove`: stop at the first entry that is not removed. -/
def removeEntries (text : Bytes) : List Name → Storage Bool
  | [] => return true
  | name :: rest => do
      if ← remove (store.linkDir ++ components (text ++ slash :: name)) then
        removeEntries text rest
      else return false

/-- `kv_remove`. -/
def kvRemove (platform : Platform) (givenKey : Bytes) : Storage Bool := do
  let key := validateKey store.sha givenKey
  let text ← pathText key
  let dir := store.linkDir ++ components text
  if (← removeAllText store.linkDir text) = 0 then do
    let names ← listDirectory platform.listing dir
    if ← store.removeEntries text names then
      remove dir
    else return false
  else return true

end FFStore

end AnarchNet
