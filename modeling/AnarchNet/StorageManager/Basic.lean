import AnarchNet.Blockstore.Basic
import AnarchNet.Json.Reader
import AnarchNet.Lib.Native
import AnarchNet.Rpc.Request

/-!
# Mounted files

`block`, `file`, `an_file` and `StorageManager` of `storage.cc`. The database and the modules that
deliver blocks are parameters, and so is what the constructor of a file leaves in the member that it
does not initialise.
-/

namespace AnarchNet

open FileSystem Native Json

/-- `AN_ID_LENGTH`. -/
abbrev anIdLength : Nat := 64

/-- `sizeof(block_header)`: the size of a file, and the id of the next header. -/
abbrev blockHeaderSize : Nat := 8 + anIdLength

/-- `block`: the buffer that was allocated, and the size that is recorded. -/
structure Block where
  data : Bytes
  size : Nat
  deriving DecidableEq

namespace Block

/-- A block that was delivered: its size is that of its buffer. -/
def delivered (data : Bytes) : Block := { data := data, size := data.length }

/-- The constructor that copies from a buffer. Its size is a `uint`. -/
def new (source : Bytes) (offset size : Int) : Program Block := do
  let size ← uint size
  let data ← copyOut source offset size
  return { data := data, size := size }

/-- The bytes of a block that count. -/
def bytes (block : Block) : Bytes := block.data.take block.size

end Block

/-- `file`. A block is shared with the list of blocks, so a pointer to it is its position there. -/
structure File where
  size : Int
  writeOffset : Int
  blockIds : List Bytes
  dataBlocks : List Block
  blockOffset : Int
  currentBlock : Option Nat
  currentBlockId : Int

namespace File

/-- `file()`; the block offset is whatever was in its place. -/
def new (blockOffset : Int) : File where
  size := 0
  writeOffset := 0
  blockIds := []
  dataBlocks := []
  blockOffset := blockOffset
  currentBlock := none
  currentBlockId := 0

/-- `add_block`. -/
def addBlock (file : File) (block : Block) : Program File := do
  let size ← int (file.size + block.size)
  let currentBlockId ← int file.dataBlocks.length
  return { file with
    dataBlocks := file.dataBlocks ++ [block]
    size := size
    currentBlock := some file.dataBlocks.length
    currentBlockId := currentBlockId }

/-- `reset_offset`: a file without blocks has no first one. -/
def resetOffset (file : File) : Program File :=
  if file.dataBlocks.isEmpty then throw .outside
  else return { file with
    writeOffset := 0, blockOffset := 0, currentBlockId := 0, currentBlock := some 0 }

/-- `next_block`. -/
def nextBlock (file : File) : Program File := do
  let id ← int (file.currentBlockId + 1)
  if 0 ≤ id ∧ id < file.dataBlocks.length then
    return { file with currentBlock := some id.toNat, currentBlockId := id, blockOffset := 0 }
  else throw .outside

/-- Change the block that `_current_block` points to. -/
def onCurrent (file : File) (change : Block → Program Block) : Program File :=
  match file.currentBlock with
  | none => throw .outside
  | some index =>
      match file.dataBlocks[index]? with
      | none => throw .outside
      | some block => do
          let block ← change block
          return { file with dataBlocks := file.dataBlocks.set index block }

/-- `memcpy` to a block: so many bytes from the beginning of a buffer. -/
def copyTo (offset : Int) (data : Bytes) (count : Int) (block : Block) : Program Block := do
  let bytes ← copyOut data 0 count.toNat
  let buffer ← copyIn block.data offset bytes
  return { block with data := buffer }

/-- Record a size in a block. -/
def resize (size : Int) (block : Block) : Program Block := do
  let size ← uint size
  return { block with size := size }

/-- A round of the loop of `write` on a file with blocks: bytes from the beginning of the data go to
the current block, and the next block becomes the current one. -/
def fillCurrent (data : Bytes) (rsize : Int) (file : File) : Program File := do
  let file ←
    if 0 < file.blockOffset then pure file
    else file.onCurrent (copyTo file.blockOffset data rsize)
  let file ← file.onCurrent (resize rsize)
  file.nextBlock

/-- The loop of `write`, with the size that is left, the size of a round and the position. -/
def writeLoop (blocksize : Nat) (data : Bytes) :
    Nat → Int → Int → Int → File → Program File
  | 0, _, _, _, _ => throw .running
  | steps + 1, size, rsize, i, file =>
      if 0 < size then do
        let rsize := if size < blocksize then size else rsize
        let file ←
          if file.dataBlocks.isEmpty then do file.addBlock (← Block.new data i rsize)
          else fillCurrent data rsize file
        let i ← int (i + rsize)
        writeLoop blocksize data steps (size - rsize) rsize i file
      else return { file with blockOffset := rsize }

/-- `write`: from a buffer, so many bytes. The source ends without the value that it declares, which
no caller uses. -/
def write (blocksize : Nat) (file : File) (data : Bytes) (size : Int) : Program File := do
  noteFits (size ≤ data.length)
  if size ≤ blocksize then
    if file.dataBlocks.isEmpty then do file.addBlock (← Block.new data 0 size)
    else do
      let file ← file.onCurrent (copyTo 0 data size)
      file.onCurrent (resize size)
  else writeLoop blocksize data (size.toNat + file.dataBlocks.length + 1) size blocksize 0 file

/-- The bytes of the blocks, one after the other. -/
def contents (file : File) : Bytes := file.dataBlocks.flatMap Block.bytes

/-- `operator<<`: the blocks are written to the stream. The source ends without returning it. -/
def insert : List Block → Program Bytes
  | [] => return []
  | block :: rest => do
      let bytes ← copyOut block.data 0 block.size
      return bytes ++ (← insert rest)

end File

/-- An input stream: what is left to read, and `good()`. -/
structure IStream where
  rest : Bytes
  good : Bool

namespace IStream

/-- `operator>>` to a string: blanks are skipped, and a word is read. At the end of the stream the
string keeps its value. -/
def extract (stream : IStream) (buff : Bytes) : IStream × Bytes :=
  let rest := stream.rest.dropWhile isSpace
  if rest = [] then ({ rest := [], good := false }, buff)
  else
    let after := rest.dropWhile (! isSpace ·)
    ({ rest := after, good := after ≠ [] }, rest.takeWhile (! isSpace ·))

end IStream

namespace File

/-- The loop of `operator>>`, with the string and the number of bytes read. -/
def readLoop (blocksize : Nat) :
    Nat → IStream → Bytes → Int → File → Program (Bytes × Int × File)
  | 0, _, _, _, _ => throw .running
  | steps + 1, stream, buff, tRead, file =>
      if stream.good then do
        let (stream, buff) := stream.extract buff
        let read ← int buff.length
        let tRead := tRead + read
        if (blocksize : Int) ≤ tRead then do
          let file ← file.write blocksize (buff ++ [0]) tRead
          readLoop blocksize steps stream [] 0 file
        else readLoop blocksize steps stream buff tRead file
      else return (buff, tRead, file)

/-- The end of `operator>>`: the bytes that remain are written. -/
def flush (blocksize : Nat) (buff : Bytes) (tRead : Int) (file : File) : Program File := do
  let file ← if 0 < tRead then file.write blocksize (buff ++ [0]) tRead else pure file
  file.resetOffset

/-- `operator>>`: a word at a time; what a string gives to `write` ends in a zero. The source ends
without returning the stream. -/
def extract (blocksize : Nat) (text : Bytes) (file : File) : Program File := do
  let (buff, tRead, file) ←
    readLoop blocksize (text.length + 2) { rest := text, good := true } [] 0 file
  flush blocksize buff tRead file

end File

/-- `StorageManager` with what it reaches: the block size of the configuration, the signal `kv_get`
with the entries of a key, and the signal `get_block`. -/
structure StorageManager where
  sha : Sha512
  blocksize : Nat
  kvGet : Bytes → Option KvResMap
  getBlock : Bytes → Option Bytes

namespace StorageManager

variable (manager : StorageManager)

/-- An entry that names the header of an old file. -/
def IsOld (entry : Bytes) : Prop :=
  entry.length = anIdLength + 2 ∧ entry[anIdLength]? = some 68 ∧ entry[anIdLength + 1]? = some 72

instance (entry : Bytes) : Decidable (IsOld entry) := inferInstanceAs (Decidable (_ ∧ _ ∧ _))

/-- `raw_header.size`. -/
def headerSize (header : Bytes) : Nat := uintValue (header.take 8)

/-- The loop of `load_file` over the blocks: the offset stays the same. -/
def loadBlocks (header : Bytes) (offset : Nat) : Nat → File → Program File
  | 0, file => return file
  | left + 1, file => do
      let hash ← copyOut header offset anIdLength
      match manager.getBlock (cString hash) with
      | none => throw .thrown
      | some subblock =>
          loadBlocks header offset left { file with
            blockIds := file.blockIds ++ [cString hash]
            dataBlocks := file.dataBlocks ++ [.delivered subblock] }

/-- `load_file` on the header of an old file. Both quotients are whole before they are rounded, and
the second one is of unsigned numbers. -/
def loadHeader (header : Bytes) (file : File) : Program File := do
  if header.length < blockHeaderSize then throw .thrown
  else
    let rawSize := headerSize header
    let blocksNeeded ← floatToInt (← quotient rawSize manager.blocksize)
    let room := ((manager.blocksize : Int) - blockHeaderSize) % 2 ^ 64
    noteExact (room = (manager.blocksize : Int) - blockHeaderSize)
    let blocksPerFile ← floatToInt (room.toNat / anIdLength)
    if blocksPerFile < blocksNeeded then throw .thrown
    else
      let size ← int rawSize
      manager.loadBlocks header blockHeaderSize blocksNeeded { file with size := size }

/-- The loop of `load_file` over the entries. -/
def loadEntries : KvResMap → File → Program File
  | [], file => return file
  | (_, entry) :: rest, file =>
      if IsOld entry then
        match manager.getBlock (entry.take anIdLength) with
        | none => throw .thrown
        | some header => do loadEntries rest (← manager.loadHeader header file)
      else loadEntries rest file

/-- `load_file`. -/
def loadFile (blockOffset : Int) (id : Bytes) : Program File :=
  match manager.kvGet (manager.sha.hash (ascii "DataMap" ++ id)) with
  | none => return .new blockOffset
  | some entries => manager.loadEntries entries (.new blockOffset)

end StorageManager

end AnarchNet
