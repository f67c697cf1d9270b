import AnarchNet.Blocks
import AnarchNet.Lib.OutStream

/-!
# The block store

`Blockstore` keeps a file under the hash of its bytes: a header with the length and, if the file
is small, the bytes themselves, otherwise the ids of the blocks that hold them. `load_file` puts
the bytes together again in the public directory. The functions follow `blockstore.cc`. What is put
into the header of a new file or into a public file stands in that file at once; the streams say
which of these bytes are still in a buffer, and that counts where the same file is opened a second
time before the stream is closed (`OutStream.settled_run`). The bytes of an integer lie in memory
from the lowest to the highest.
-/

namespace AnarchNet

open FileSystem

/-- The directories of an initialised store, the hash function, the block size in units of 1024
bytes and the size of the cache of public files. The directories are absolute paths, and neither
lies in the other. -/
structure Blockstore where
  sha : Sha512
  uniqueDir : FilePath
  pubDir : FilePath
  uniqueDir_valid : ValidPath uniqueDir
  pubDir_valid : ValidPath pubDir
  unique_not_pub : ¬ uniqueDir <+: pubDir
  pub_not_unique : ¬ pubDir <+: uniqueDir
  units : Nat
  units_pos : 0 < units
  units_lt : 1024 * units < 2 ^ 32
  cacheSize : Nat
  cacheSize_pos : 0 < cacheSize

/-- What the source leaves open: the memory that it reads without having written it, which is what
lies behind the block buffer while a block is hashed, what a new buffer holds and what a new integer
holds, and from how many bytes on a write goes past the buffer of a stream. An id is shorter. -/
structure Memory where
  behind : Nat → Bytes
  buffer : Bytes
  integer : Bytes
  direct : Nat
  direct_gt : 128 < direct

/-- `public_file`; the path of a bad file is empty. -/
structure PublicFile where
  path : Option FilePath
  good : Bool
  deriving DecidableEq

/-- The cached public files, the least recently used first. -/
abbrev FileCache := List (Bytes × PublicFile)

/-- The four bytes of a `uint`. -/
def uintBytes (number : Nat) : Bytes :=
  [UInt8.ofNat number, UInt8.ofNat (number / 2 ^ 8), UInt8.ofNat (number / 2 ^ 16),
    UInt8.ofNat (number / 2 ^ 24)]

/-- The `uint` that four bytes hold. -/
def uintValue (bytes : Bytes) : Nat :=
  bytes.foldr (fun byte number => byte.toNat + 2 ^ 8 * number) 0

/-- `abs` of a `uint` that was converted to `int`. -/
def absInt (number : Nat) : Nat :=
  (Int.bmod number (2 ^ 32)).natAbs

/-- `HASH_SIZE`. -/
abbrev hashSize : Nat := 128

/-- The whole pieces of a length into which a text can be cut. -/
def wholePieces (size : Nat) (text : Bytes) : List Bytes :=
  (List.range (text.length / size)).map fun index => (text.drop (index * size)).take size

namespace Blockstore

variable (store : Blockstore)

/-- `_blocksize`. -/
def blocksize : Nat := 1024 * store.units

/-- Write one block and its id in the header; nothing is written when the block cannot be opened.
When the block replaces the header itself, what waits in the stream of the header is written over
it. -/
def putBlock (header : FilePath) (stream : OutStream) (id bytes : Bytes) : Storage Bool := do
  match ← openBlock store.uniqueDir (← pathText id) with
  | none => return false
  | some file => do
      writeAt file 0 bytes
      if file = header then writeAt header stream.position stream.waiting
      writeAt header stream.length (id.take hashSize)
      return true

/-- The loop of `store_file` for the blocks from number `index` on. At the end of the file the
string hashed is what was read, before it the C string at the front of the buffer. -/
def storeBlocks (memory : Memory) (content : Bytes) (header : FilePath) :
    Nat → Nat → OutStream → Bytes → Storage Bool
  | 0, _, _, _ => return true
  | count + 1, index, stream, old => do
      let size := store.blocksize
      let chunk := (content.drop (index * size)).take size
      let buffer := chunk ++ old.drop chunk.length
      let atEnd := chunk.length < size
      let readbytes :=
        if atEnd then absInt ((content.length + 2 ^ 32 - index * size % 2 ^ 32) % 2 ^ 32) else size
      let hashed :=
        if atEnd then buffer.take readbytes else cString (buffer ++ memory.behind index)
      let id := toHex (store.sha.hash hashed)
      if ← store.putBlock header stream id (buffer.take readbytes) then
        storeBlocks memory content header count (index + 1)
          (stream.write memory.direct (id.take hashSize)) buffer
      else return false

/-- `store_file` for the bytes of the file at the given path, if there is one: the value returned
and the id. -/
def storeFile (memory : Memory) (source : Option Bytes) : Storage (Bool × Bytes) :=
  match source with
  | none => return (false, [])
  | some content => do
      let hash := toHex (store.sha.hash content)
      let hpath ← pathText hash
      let filesize := content.length % 2 ^ 32
      let write : Storage (Bool × Bytes) := do
        if ← present (store.uniqueDir ++ components hpath) then return (true, hash)
        else match ← openBlock store.uniqueDir hpath with
          | none => return (false, [])
          | some header => do
              writeAt header 0 (uintBytes filesize)
              if filesize ≤ store.blocksize then do
                writeAt header 4 content
                return (true, hash)
              else if ← store.storeBlocks memory content header (filesize / store.blocksize + 1) 0
                  (OutStream.opened.write memory.direct (uintBytes filesize))
                  (memory.buffer.take store.blocksize) then return (true, hash)
              else return (false, [])
      tryCatch write fun exception =>
        match exception with
        | .filesystemError => return (false, [])
        | other => throw other

/-- What `<<` reads of a block while the stream writes `out`: nothing once the stream has failed.
`out` itself is empty as long as all its bytes wait in the stream; after that its end is never read,
since what is read is added to it. -/
def readBlock (out file : FilePath) (stream : OutStream) (failed : Bool) : Storage Bytes :=
  if failed then return []
  else if file = out then
    if stream.position = 0 then return [] else throw .undefined
  else return (← readAll file).getD []

/-- The loop of `load_file` over the ids in a header. A block without bytes makes the output
stream fail, and nothing more is written then. The result tells whether all blocks could be
opened. -/
def copyBlocks (direct : Nat) (out : FilePath) : List Bytes → OutStream → Bool → Storage Bool
  | [], _, _ => return true
  | bid :: rest, stream, failed => do
      let text ← pathText bid
      if (0 : UInt8) ∈ bid then throw .fileNotFound
      match ← openIn (store.uniqueDir ++ components text) with
      | none => return false
      | some file => do
          let bytes ← readBlock out file stream failed
          if bytes = [] then copyBlocks direct out rest stream true
          else do
            writeAt out stream.length bytes
            copyBlocks direct out rest (stream.insert direct bytes) false

/-- The body of `load_file` once its two files are open. -/
def publish (memory : Memory) (path out : FilePath) (header : Option Bytes) :
    Storage PublicFile := do
  let content := header.getD []
  let filesize := uintValue ((content.take 4 ++ memory.integer.drop content.length).take 4)
  if filesize ≤ store.blocksize - 4 then do
    let bytes := (content.drop 4).take filesize
    writeAt out 0 ((bytes ++ memory.buffer.drop bytes.length).take filesize)
    return ⟨some path, true⟩
  else if header.isNone then throw .fileNotFound
  else if ← store.copyBlocks memory.direct out (wholePieces hashSize (content.drop 4))
      .opened false then
    return ⟨some path, true⟩
  else return ⟨none, false⟩

/-- `load_file`. A directory can be opened for reading, but nothing is read from it. -/
def loadFile (memory : Memory) (fid : Bytes) : Storage PublicFile :=
  let load : Storage PublicFile := do
    match ← openIn (store.uniqueDir ++ components (← pathText fid)) with
    | none => throw .fileNotFound
    | some file => do
        let path := store.pubDir ++ components fid
        match ← openOut path with
        | none => throw .fileNotFound
        | some out => do
            let header ← readAll file
            store.publish memory path out header
  tryCatch load fun exception =>
    match exception with
    | .filesystemError => return ⟨none, false⟩
    | other => throw other

/-- `~public_file`: the file of an evicted cache entry is removed. -/
def destroy (file : PublicFile) : Storage Unit :=
  match file.path with
  | none => return ()
  | some path => do
      let _ ← remove path
      return ()

/-- The cache of public files: `operator()` and `insert` of `lru_cache_base`. -/
def cached (memory : Memory) (cache : FileCache) (fid : Bytes) :
    Storage (PublicFile × FileCache) :=
  match cache.lookup fid with
  | some file => return (file, cache.filter (·.1 ≠ fid) ++ [(fid, file)])
  | none => do
      let file ← store.loadFile memory fid
      match cache with
      | (_, oldest) :: rest =>
          if cache.length = store.cacheSize then do
            destroy oldest
            return (file, rest ++ [(fid, file)])
          else return (file, cache ++ [(fid, file)])
      | [] => return (file, [(fid, file)])

/-- `get_file`: the value returned, the path published and the cache afterwards. -/
def getFile (memory : Memory) (cache : FileCache) (fid : Bytes) :
    Storage (Bool × Option FilePath × FileCache) := do
  let (file, after) ← store.cached memory cache fid
  if file.good then return (true, file.path, after) else return (false, none, after)

/-- `remove_file`. -/
def removeFile (fid : Bytes) : Storage Bool := do
  let text ← pathText fid
  remove (store.uniqueDir ++ components text)

/-- `store_block`. -/
def storeBlock (content : Bytes) : Storage Bool := do
  match ← openBlock store.uniqueDir (← pathText (toHex (store.sha.hash content))) with
  | none => return false
  | some file => do
      writeAt file 0 content
      return true

/-- `load_block`. -/
def loadBlock (bid : Bytes) : Storage Bytes := do
  match ← openIn (store.uniqueDir ++ components (← pathText bid)) with
  | none => throw .fileNotFound
  | some file =>
      match ← readAll file with
      | none => throw .fileNotFound
      | some content => return content

/-- `get_block`: the value returned and the block. -/
def getBlock (bid : Bytes) : Storage (Bool × Bytes) :=
  tryCatch (do return (true, ← store.loadBlock bid)) fun _ => return (false, [])

end Blockstore

end AnarchNet
