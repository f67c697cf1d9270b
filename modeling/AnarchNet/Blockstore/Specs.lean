import AnarchNet.Blockstore.Basic

/-!
# The block store as a map from ids to bytes

In a sound tree the unique directory is a map from ids to bytes, `view`. Each function has one
specification in terms of that map: the call returns, with this result, and the map and the public
files are these afterwards.
-/

namespace AnarchNet

open FileSystem

namespace Blockstore

variable {store : Blockstore}

/-- The id under which a text is stored. -/
def idOf (store : Blockstore) (text : Bytes) : Bytes := toHex (store.sha.hash text)

/-- What every tree of a store looks like: the two directories are there, the unique directory
holds blocks, the public directory holds files under ids, and links lead to files outside the
unique directory. -/
structure Sound (store : Blockstore) (tree : FileTree) : Prop where
  blocks : BlockDir store.uniqueDir tree
  pub : tree.get store.pubDir = some .dir
  published : ∀ id, HexId id → tree.get (store.pubDir ++ [id]) = none ∨
    ∃ content, tree.get (store.pubDir ++ [id]) = some (.file content)
  links : tree.LinksToFiles
  apart : ∀ path target, tree.get path = some (.link target) → ¬ store.uniqueDir <+: target

/-- The bytes stored under an id. -/
def view (store : Blockstore) (tree : FileTree) (id : Bytes) : Option Bytes :=
  tree.content (store.uniqueDir ++ shard id)

/-- The map with one id set. -/
def setId (map : Bytes → Option Bytes) (id : Bytes) (content : Option Bytes) :
    Bytes → Option Bytes :=
  fun other => if other = id then content else map other

@[simp] theorem setId_same (map : Bytes → Option Bytes) (id : Bytes) (content : Option Bytes) :
    setId map id content id = content := if_pos rfl

theorem setId_other (map : Bytes → Option Bytes) {id other : Bytes} (content : Option Bytes)
    (h : other ≠ id) : setId map id content other = map other := if_neg h

/-- Setting an id twice. -/
theorem setId_setId (map : Bytes → Option Bytes) (id : Bytes) (first second : Option Bytes) :
    setId (setId map id first) id second = setId map id second := by
  funext other
  unfold setId
  split <;> rfl

/-- The tree afterwards is sound, holds this map and differs only in the unique directory, where
the new files are those of ids. -/
structure Now (store : Blockstore) (before after : FileTree) (map : Bytes → Option Bytes) :
    Prop where
  sound : Sound store after
  view : ∀ id, HexId id → store.view after id = map id
  outside : ∀ path, ¬ store.uniqueDir <+: path → after.get path = before.get path
  files : ∀ path content, after.get path = some (.file content) →
    before.get path = some (.file content) ∨
      ∃ id, HexId id ∧ path = store.uniqueDir ++ shard id

/-- Every text has an id. -/
theorem hexId_idOf (store : Blockstore) (text : Bytes) : HexId (store.idOf text) :=
  store.sha.hexId text

/-- Nothing in the public directory lies in the unique one. -/
theorem not_unique_of_pub (store : Blockstore) {path : FilePath} (h : store.pubDir <+: path) :
    ¬ store.uniqueDir <+: path := by
  intro hunique
  rcases List.prefix_or_prefix_of_prefix h hunique with hpre | hpre
  · exact store.pub_not_unique hpre
  · exact store.unique_not_pub hpre

/-- A directory holds no bytes, and a missing file neither. -/
theorem view_eq_some {tree : FileTree} {id content : Bytes} :
    store.view tree id = some content ↔
      tree.get (store.uniqueDir ++ shard id) = some (.file content) := by
  rw [view, FileTree.content]
  split
  · next found hfound => simp [hfound]
  · next hnot => simpa using hnot content

/-- In a sound tree nothing is there under an id that holds no bytes. -/
theorem Sound.view_eq_none {tree : FileTree} (h : Sound store tree) {id : Bytes} (hid : HexId id) :
    store.view tree id = none ↔ tree.get (store.uniqueDir ++ shard id) = none := by
  rcases h.blocks.files id hid with hnone | ⟨content, hfile⟩
  · simp [view, FileTree.content, hnone]
  · simp [view, FileTree.content, hfile]

/-- Storing a file keeps the links good. -/
theorem linksToFiles_of_stored {before after : FileTree} {file : FilePath} {content : Bytes}
    (h : before.LinksToFiles) (hstored : Stored file content before after)
    (habove : ∀ path old, before.get path = some (.file old) → path ≠ file → ¬ path <+: file) :
    after.LinksToFiles := by
  refine h.mono (fun path old hfile => ?_) fun path target hlink =>
    Or.inl (hstored.get_link hlink)
  by_cases hpath : path = file
  · exact ⟨content, hpath ▸ hstored.get_file⟩
  · exact ⟨old, by rw [hstored.get_other (habove path old hfile hpath), hfile]⟩

/-- Storing bytes under an id sets the map there. -/
theorem Sound.of_stored {before after : FileTree} {id content : Bytes} (h : Sound store before)
    (hid : HexId id) (hstored : Stored (store.uniqueDir ++ shard id) content before after) :
    Now store before after (setId (store.view before) id (some content)) := by
  have houtside : ∀ path, ¬ store.uniqueDir <+: path → after.get path = before.get path := by
    intro path hpath
    by_cases habove : path <+: store.uniqueDir ++ shard id
    · rcases prefix_append_cases habove with hle | ⟨rest, rfl, -⟩
      · have hdir : before.get path = some .dir := by
          obtain ⟨tail, htail⟩ := hle
          exact FileTree.get_dir_of_append (htail ▸ h.blocks.base)
        rw [hstored, if_neg (fun heq : path = _ => hpath (heq ▸ List.prefix_append _ _)),
          if_pos habove, hdir]
      · exact absurd (List.prefix_append _ _) hpath
    · exact hstored.get_other habove
  refine ⟨⟨h.blocks.of_stored hstored, ?_, fun other hother => ?_, ?_,
    fun path target hlink => h.apart path target (hstored.get_link hlink)⟩,
    fun other hother => ?_, houtside, fun path old hfile => ?_⟩
  · rw [houtside _ (store.not_unique_of_pub List.prefix_rfl), h.pub]
  · rw [houtside _ (store.not_unique_of_pub (List.prefix_append _ _))]
    exact h.published other hother
  · refine linksToFiles_of_stored h.links hstored fun path old hfile hne habove => ?_
    rcases h.blocks.above_block hid habove hne with hnode | hnode <;> simp [hnode] at hfile
  · by_cases heq : other = id
    · rw [heq, setId_same, view_eq_some, hstored.get_file]
    · have hget : after.get (store.uniqueDir ++ shard other) =
          before.get (store.uniqueDir ++ shard other) := by
        refine hstored.get_other fun hpre => heq (id_eq_of_shard_le ?_)
        rwa [List.prefix_append_right_inj] at hpre
      rw [setId_other _ _ heq, view, view, FileTree.content, FileTree.content, hget]
  · rw [hstored] at hfile
    split at hfile
    · next heq => exact Or.inr ⟨id, hid, heq⟩
    · split at hfile
      · simp at hfile
      · exact Or.inl hfile

/-- Removing the file of an id. -/
theorem Sound.of_removed {before after : FileTree} {id : Bytes} (h : Sound store before)
    (hget : ∀ path, after.get path =
      if path = store.uniqueDir ++ shard id then none else before.get path) :
    Now store before after (setId (store.view before) id none) := by
  have houtside : ∀ path, ¬ store.uniqueDir <+: path → after.get path = before.get path :=
    fun path hpath => by
      rw [hget, if_neg fun heq : path = _ => hpath (heq ▸ List.prefix_append _ _)]
  refine ⟨⟨⟨?_, fun other above hother habove hne => ?_, fun other hother => ?_⟩, ?_,
    fun other hother => ?_, fun path target hlink => ?_, fun path target hlink => ?_⟩,
    fun other hother => ?_, houtside, fun path old hfile => ?_⟩
  · rw [hget, if_neg (by simp [shard]), h.blocks.base]
  · rw [hget]
    split
    · exact Or.inl rfl
    · exact h.blocks.above other above hother habove hne
  · rw [hget]
    split
    · exact Or.inl rfl
    · exact h.blocks.files other hother
  · rw [houtside _ (store.not_unique_of_pub List.prefix_rfl), h.pub]
  · rw [houtside _ (store.not_unique_of_pub (List.prefix_append _ _))]
    exact h.published other hother
  · rw [hget] at hlink
    split at hlink
    · simp at hlink
    · obtain ⟨hplain, content, hfile⟩ := h.links path target hlink
      refine ⟨hplain, content, ?_⟩
      rw [houtside target (h.apart path target hlink), hfile]
  · rw [hget] at hlink
    split at hlink
    · simp at hlink
    · exact h.apart path target hlink
  · by_cases heq : other = id
    · rw [heq, setId_same, view, FileTree.content, hget, if_pos rfl]
    · rw [setId_other _ _ heq, view, view, FileTree.content, FileTree.content, hget, if_neg]
      exact fun hpath => heq (shard_injective (List.append_cancel_left hpath))
  · rw [hget] at hfile
    split at hfile
    · simp at hfile
    · exact Or.inl hfile

/-- A map that agrees on the ids will do. -/
theorem Now.congr {before after : FileTree} {map other : Bytes → Option Bytes}
    (h : Now store before after map) (heq : ∀ id, HexId id → map id = other id) :
    Now store before after other :=
  ⟨h.sound, fun id hid => by rw [h.view id hid, heq id hid], h.outside, h.files⟩

/-- Changes that follow each other. -/
theorem Now.trans {first second third : FileTree} {map other : Bytes → Option Bytes}
    (h : Now store first second map) (hnext : Now store second third other) :
    Now store first third other :=
  ⟨hnext.sound, hnext.view, fun path hpath => by
    rw [hnext.outside path hpath, h.outside path hpath], fun path content hfile => by
      rcases hnext.files path content hfile with hfile | hid
      · exact h.files path content hfile
      · exact Or.inr hid⟩

/-- A further change of one id. -/
theorem Now.set {first second third : FileTree} {map : Bytes → Option Bytes} {id : Bytes}
    {content : Option Bytes} (h : Now store first second map)
    (hnext : Now store second third (setId (store.view second) id content)) :
    Now store first third (setId map id content) := by
  refine (h.trans hnext).congr fun other hother => ?_
  by_cases heq : other = id
  · rw [heq, setId_same, setId_same]
  · rw [setId_other _ _ heq, setId_other _ _ heq, h.view other hother]

section Calls

variable {world : World}

/-- Opening a block for writing leaves no bytes under its id. -/
theorem run_openBlock_id {id : Bytes} (hsound : Sound store world.tree) (hid : HexId id) :
    ∃ after, (openBlock store.uniqueDir (shardText id)).run world =
        .ok (some (store.uniqueDir ++ shard id)) after ∧
      Now store world.tree after.tree (setId (store.view world.tree) id (some [])) := by
  obtain ⟨after, hrun, hstored⟩ :=
    run_openBlock hid store.uniqueDir_valid hsound.blocks hsound.links
  exact ⟨after, hrun, hsound.of_stored hid hstored⟩

/-- Writing to the file of an id. -/
theorem run_writeAt_id {id old : Bytes} (hsound : Sound store world.tree) (hid : HexId id)
    (hold : store.view world.tree id = some old) (position : Nat) (bytes : Bytes) :
    ∃ after, (writeAt (store.uniqueDir ++ shard id) position bytes : Storage Unit).run world =
        .ok () after ∧
      Now store world.tree after.tree
        (setId (store.view world.tree) id (some (overlay old position bytes))) := by
  rw [view_eq_some] at hold
  obtain ⟨after, hrun, hget⟩ := run_writeAt (ε := Exception) position bytes hold
  refine ⟨after, hrun, hsound.of_stored hid fun path => ?_⟩
  rw [hget]
  by_cases hpath : path = store.uniqueDir ++ shard id
  · rw [if_pos hpath, if_pos hpath]
  · rw [if_neg hpath, if_neg hpath]
    split
    · next habove =>
        obtain ⟨tail, htail⟩ := habove
        have htailne : tail ≠ [] := fun hnil => hpath (by rw [← htail, hnil, List.append_nil])
        exact FileTree.get_of_append htailne (by rw [htail, hold]; simp)
    · rfl

/-- Storing a block. -/
theorem run_storeBlock (hsound : Sound store world.tree) (content : Bytes) :
    ∃ after, (store.storeBlock content).run world = .ok true after ∧
      Now store world.tree after.tree
        (setId (store.view world.tree) (store.idOf content) (some content)) := by
  have hid := store.hexId_idOf content
  obtain ⟨opened, hopened, hnow⟩ := run_openBlock_id hsound hid
  obtain ⟨after, hafter, hnext⟩ := run_writeAt_id hnow.sound hid
    (by rw [hnow.view _ hid, setId_same]) 0 content
  rw [overlay_nil] at hnext
  refine ⟨after, ?_, setId_setId _ _ _ _ ▸ hnow.set hnext⟩
  simp only [storeBlock, EStateM.run_bind, show toHex (store.sha.hash content) =
    store.idOf content from rfl, run_pathText hid, hopened, hafter]
  rfl

end Calls

/-! ## The blocks of a file -/

/-- The bytes of a block. -/
def blockData (store : Blockstore) (content : Bytes) (index : Nat) : Bytes :=
  (content.drop (index * store.blocksize)).take store.blocksize

/-- The string that a block is hashed as: the last block as a whole, any other up to its first
zero byte and, without one, on into the memory behind the buffer. -/
def blockText (store : Blockstore) (memory : Memory) (content : Bytes) (index : Nat) : Bytes :=
  if (store.blockData content index).length < store.blocksize then store.blockData content index
  else cString (store.blockData content index ++ memory.behind index)

/-- The id of a block. -/
def blockId (store : Blockstore) (memory : Memory) (content : Bytes) (index : Nat) : Bytes :=
  store.idOf (store.blockText memory content index)

/-- The map with the blocks of a list of numbers set, one after the other. -/
def setBlocks (store : Blockstore) (memory : Memory) (content : Bytes)
    (map : Bytes → Option Bytes) (indices : List Nat) : Bytes → Option Bytes :=
  indices.foldl (fun current index =>
    setId current (store.blockId memory content index) (some (store.blockData content index))) map

/-- Every block has an id. -/
theorem hexId_blockId (store : Blockstore) (memory : Memory) (content : Bytes) (index : Nat) :
    HexId (store.blockId memory content index) :=
  store.hexId_idOf _

/-- A block has at least 1024 bytes. -/
theorem le_blocksize (store : Blockstore) : 1024 ≤ store.blocksize := by
  have := store.units_pos
  unfold blocksize
  omega

/-- The block size is positive. -/
theorem blocksize_pos (store : Blockstore) : 0 < store.blocksize :=
  lt_of_lt_of_le (by decide) store.le_blocksize

/-- A small number is its own absolute value. -/
theorem absInt_of_lt {number : Nat} (h : number < 2 ^ 31) : absInt number = number := by
  have hbmod : Int.bmod (number : Int) (2 ^ 32) = number := by
    apply Int.bmod_eq_of_le_mul_two
    · omega
    · omega
  unfold absInt
  rw [hbmod]
  simp

/-- How long the last block is. -/
theorem length_blockData (store : Blockstore) (content : Bytes) (index : Nat) :
    (store.blockData content index).length =
      min store.blocksize (content.length - index * store.blocksize) := by
  rw [blockData, List.length_take, List.length_drop]

/-- The source computes the length of the last block right. -/
theorem readbytes_eq {content : Bytes} {index : Nat} (hsize : content.length < 2 ^ 32)
    (hbig : store.blocksize < content.length) (hindex : index * store.blocksize ≤ content.length)
    (hend : (store.blockData content index).length < store.blocksize) :
    absInt ((content.length + 2 ^ 32 - index * store.blocksize % 2 ^ 32) % 2 ^ 32) =
      (store.blockData content index).length := by
  rw [length_blockData] at hend ⊢
  have hmod : index * store.blocksize % 2 ^ 32 = index * store.blocksize :=
    Nat.mod_eq_of_lt (by omega)
  have hpos : 1 ≤ index := by
    by_contra hzero
    have : index = 0 := by omega
    subst this
    omega
  have hmul : store.blocksize ≤ index * store.blocksize := Nat.le_mul_of_pos_left _ hpos
  have hvalue : (content.length + 2 ^ 32 - index * store.blocksize % 2 ^ 32) % 2 ^ 32 =
      content.length - index * store.blocksize := by
    rw [hmod]
    omega
  rw [hvalue, absInt_of_lt (by omega)]
  omega

/-- The source reads the right bytes in a round of the loop in `store_file`: the block is full, or
it is the end of a file whose length is a `uint`. -/
def RightRound (store : Blockstore) (content : Bytes) (index : Nat) : Prop :=
  store.blocksize ≤ (store.blockData content index).length ∨
    content.length < 2 ^ 32 ∧ store.blocksize < content.length ∧
      index * store.blocksize ≤ content.length

/-- The rounds of a file whose length is a `uint`. -/
theorem rightRound_of_lt {content : Bytes} {index : Nat} (hsize : content.length < 2 ^ 32)
    (hbig : store.blocksize < content.length) (hindex : index ≤ content.length / store.blocksize) :
    RightRound store content index :=
  Or.inr ⟨hsize, hbig, (Nat.mul_le_mul_right _ hindex).trans (Nat.div_mul_le_self _ _)⟩

/-- The bytes that a round of the loop in `store_file` writes are those of its block. -/
theorem written_eq_blockData {content : Bytes} {index : Nat} (h : RightRound store content index)
    (old : Bytes) :
    (store.blockData content index ++ old.drop (store.blockData content index).length).take
      (if (store.blockData content index).length < store.blocksize then
        absInt ((content.length + 2 ^ 32 - index * store.blocksize % 2 ^ 32) % 2 ^ 32)
      else store.blocksize) = store.blockData content index := by
  split
  · next hend =>
      obtain ⟨hsize, hbig, hindex⟩ := h.resolve_left (not_le.mpr hend)
      rw [readbytes_eq hsize hbig hindex hend, List.take_left]
  · next hend =>
      have hfull : (store.blockData content index).length = store.blocksize := by
        rw [length_blockData] at hend ⊢
        omega
      rw [← hfull, List.take_left]

/-- The string that a round hashes is that of its block. -/
theorem hashed_eq_blockText (memory : Memory) (content : Bytes) (index : Nat) {old : Bytes}
    (hold : old.length ≤ store.blocksize) :
    (if (store.blockData content index).length < store.blocksize then
        store.blockData content index
      else cString (store.blockData content index ++
        old.drop (store.blockData content index).length ++ memory.behind index)) =
      store.blockText memory content index := by
  rw [blockText]
  split
  · rfl
  · next hend =>
      rw [length_blockData] at hend
      rw [List.drop_eq_nil_of_le (by rw [length_blockData]; omega), List.append_nil]

/-- One round of the loop in `store_file`, in terms of the block that it stores. -/
theorem storeBlocks_succ {memory : Memory} {content : Bytes} {header : FilePath}
    {count index : Nat} {stream : OutStream} {old : Bytes}
    (hround : RightRound store content index) (hold : old.length ≤ store.blocksize) :
    store.storeBlocks memory content header (count + 1) index stream old = (do
      if ← store.putBlock header stream (store.blockId memory content index)
          (store.blockData content index) then
        store.storeBlocks memory content header count (index + 1)
          (stream.write memory.direct ((store.blockId memory content index).take hashSize))
          (store.blockData content index ++ old.drop (store.blockData content index).length)
      else return false) := by
  have hdata : (content.drop (index * store.blocksize)).take store.blocksize =
      store.blockData content index := rfl
  have hid : toHex (store.sha.hash (store.blockText memory content index)) =
      store.blockId memory content index := rfl
  rw [storeBlocks]
  simp only [hdata, written_eq_blockData hround, hashed_eq_blockText memory content index hold, hid]

/-- What the blocks leave under an id depends only on what was there. -/
theorem setBlocks_congr {memory : Memory} {content : Bytes} {first second : Bytes → Option Bytes}
    {id : Bytes} (h : first id = second id) (indices : List Nat) :
    store.setBlocks memory content first indices id =
      store.setBlocks memory content second indices id := by
  induction indices generalizing first second with
  | nil => exact h
  | cons index indices ih =>
      refine ih ?_
      dsimp only
      by_cases heq : id = store.blockId memory content index
      · rw [heq, setId_same, setId_same]
      · rw [setId_other _ _ heq, setId_other _ _ heq, h]

/-- Files of different ids lie at different places. -/
theorem uniqueFile_ne {id other : Bytes} (h : id ≠ other) :
    store.uniqueDir ++ shard id ≠ store.uniqueDir ++ shard other :=
  fun heq => h (shard_injective (List.append_cancel_left heq))

/-- The loop of `store_file` sets its blocks and appends their ids to the header. -/
theorem run_storeBlocks {memory : Memory} {content fid written : Bytes} {count index : Nat}
    {stream : OutStream} {old : Bytes} {world : World}
    (hrounds : ∀ number < index + count, RightRound store content number)
    (hold : old.length ≤ store.blocksize) (hsound : Sound store world.tree) (hfid : HexId fid)
    (hwritten : store.view world.tree fid = some written)
    (hstream : stream.length = written.length)
    (halias : ∀ number < index + count, store.blockId memory content number ≠ fid) :
    ∃ after, (store.storeBlocks memory content (store.uniqueDir ++ shard fid) count index stream
        old).run world = .ok true after ∧
      Now store world.tree after.tree
        (setId (store.setBlocks memory content (store.view world.tree) (List.range' index count))
          fid (some (written ++
            ((List.range' index count).map (store.blockId memory content)).flatten))) := by
  induction count generalizing index stream old written world with
  | zero =>
      refine ⟨world, rfl, hsound, fun id _ => ?_, fun _ _ => rfl, fun _ _ hfile => Or.inl hfile⟩
      by_cases heq : id = fid
      · simp [heq, hwritten]
      · rw [setId_other _ _ heq]
        rfl
  | succ count ih =>
      have hblock := store.hexId_blockId memory content index
      have hother := halias index (by omega)
      obtain ⟨opened, hopened, hnow1⟩ := run_openBlock_id hsound hblock
      obtain ⟨filled, hfilled, hnow2⟩ := run_writeAt_id hnow1.sound hblock
        (by rw [hnow1.view _ hblock, setId_same]) 0 (store.blockData content index)
      rw [overlay_nil] at hnow2
      have hchain := hnow1.set hnow2
      have hheader : store.view filled.tree fid = some written := by
        rw [hchain.view _ hfid, setId_other _ _ hother.symm, setId_other _ _ hother.symm, hwritten]
      obtain ⟨listed, hlisted, hnow3⟩ := run_writeAt_id hchain.sound hfid hheader
        stream.length (store.blockId memory content index)
      rw [hstream, overlay_length] at hnow3
      have hchain := hchain.set hnow3
      have hbuffer : (store.blockData content index ++
          old.drop (store.blockData content index).length).length ≤ store.blocksize := by
        rw [List.length_append, List.length_drop, length_blockData]
        omega
      have htake : (store.blockId memory content index).take hashSize =
          store.blockId memory content index := List.take_of_length_le hblock.length.le
      have hlonger : (stream.write memory.direct (store.blockId memory content index)).length =
          (written ++ store.blockId memory content index).length := by
        rw [OutStream.length_write, hstream, List.length_append]
      have hrest : ∀ number < index + 1 + count, RightRound store content number :=
        fun number hnumber => hrounds number (by omega)
      obtain ⟨after, hafter, hnow⟩ := ih hrest hbuffer hchain.sound
        (by rw [hchain.view _ hfid, setId_same]) hlonger
        fun number hnumber => halias number (by omega)
      refine ⟨after, ?_, (hchain.trans hnow).congr fun id hid => ?_⟩
      · have hplace : store.uniqueDir ++ shard (store.blockId memory content index) ≠
            store.uniqueDir ++ shard fid := uniqueFile_ne hother
        rw [storeBlocks_succ (hrounds index (by omega)) hold]
        simp only [putBlock, EStateM.run_bind, run_pathText hblock, hopened, hfilled,
          if_neg hplace, htake, hlisted, EStateM.run_pure, if_true, hafter]
      · by_cases heq : id = fid
        · rw [heq, setId_same, setId_same, List.range'_succ, List.map_cons, List.flatten_cons,
            List.append_assoc]
        · rw [setId_other _ _ heq, setId_other _ _ heq, List.range'_succ]
          refine setBlocks_congr ?_ _
          rw [hchain.view id hid, setId_other _ _ heq, setId_setId]

/-- The numbers of the blocks of a file; a small file has none. -/
def blockIndices (store : Blockstore) (content : Bytes) : List Nat :=
  if content.length ≤ store.blocksize then []
  else List.range' 0 (content.length / store.blocksize + 1)

/-- What follows the length in a header: the bytes of a small file, the block ids of a big one. -/
def headerBody (store : Blockstore) (memory : Memory) (content : Bytes) : Bytes :=
  if content.length ≤ store.blocksize then content
  else ((store.blockIndices content).map (store.blockId memory content)).flatten

/-- The header of a file. -/
def headerBytes (store : Blockstore) (memory : Memory) (content : Bytes) : Bytes :=
  uintBytes content.length ++ store.headerBody memory content

/-- The map after a file was stored. -/
def setFile (store : Blockstore) (memory : Memory) (content : Bytes)
    (map : Bytes → Option Bytes) : Bytes → Option Bytes :=
  setId (store.setBlocks memory content map (store.blockIndices content)) (store.idOf content)
    (some (store.headerBytes memory content))

/-- The map after some blocks of a file were stored: its header has a size and lists them. -/
def setListed (store : Blockstore) (memory : Memory) (content : Bytes) (size count : Nat)
    (map : Bytes → Option Bytes) : Bytes → Option Bytes :=
  setId (store.setBlocks memory content map (List.range' 0 count)) (store.idOf content)
    (some (uintBytes size ++ ((List.range' 0 count).map (store.blockId memory content)).flatten))

section Calls

variable {world : World}

/-- Looking up the file of an id. -/
theorem Sound.resolve_id {tree : FileTree} (h : Sound store tree) {id : Bytes} (hid : HexId id) :
    tree.resolve (store.uniqueDir ++ components (shardText id)) =
      (store.view tree id).map fun _ => store.uniqueDir ++ shard id := by
  rw [hid.components_shardText]
  have hplain := (hid.validPath store.uniqueDir_valid).plain
  cases hview : store.view tree id with
  | none =>
      exact FileTree.resolve_of_missing h.links.avoidDirs hplain ((h.view_eq_none hid).mp hview)
  | some content => exact FileTree.resolve_of_get hplain (view_eq_some.mp hview) (by simp)

/-- A file that is stored already is not stored again. -/
theorem run_storeFile_old (hsound : Sound store world.tree) (memory : Memory) {content old : Bytes}
    (hold : store.view world.tree (store.idOf content) = some old) :
    (store.storeFile memory (some content)).run world = .ok (true, store.idOf content) world := by
  have hid := store.hexId_idOf content
  have hresolve := hsound.resolve_id hid
  rw [hold] at hresolve
  simp only [storeFile, EStateM.run_bind, show toHex (store.sha.hash content) =
    store.idOf content from rfl, run_pathText hid, EStateM.run_tryCatch_eq, run_present, hresolve]
  rfl

/-- What `store_file` writes to the header behind the length, and the blocks. -/
def fillHeader (store : Blockstore) (memory : Memory) (content : Bytes) (header : FilePath) :
    Storage Bool := do
  let filesize := content.length % 2 ^ 32
  if filesize ≤ store.blocksize then do
    writeAt header 4 content
    return true
  else
    store.storeBlocks memory content header (filesize / store.blocksize + 1) 0
      (OutStream.opened.write memory.direct (uintBytes filesize))
      (memory.buffer.take store.blocksize)

/-- `store_file` makes the header of a new file with the length in it and goes on from there. -/
theorem run_storeFile_header (hsound : Sound store world.tree) (memory : Memory) {content : Bytes}
    (hnew : store.view world.tree (store.idOf content) = none) :
    ∃ sized : World,
      Now store world.tree sized.tree (setId (store.view world.tree) (store.idOf content)
        (some (uintBytes (content.length % 2 ^ 32)))) ∧
      ∀ after, (store.fillHeader memory content
          (store.uniqueDir ++ shard (store.idOf content))).run sized = .ok true after →
        (store.storeFile memory (some content)).run world =
          .ok (true, store.idOf content) after := by
  have hid := store.hexId_idOf content
  have hresolve := hsound.resolve_id hid
  rw [hnew] at hresolve
  obtain ⟨opened, hopened, hnow1⟩ := run_openBlock_id hsound hid
  obtain ⟨sized, hsized, hnow2⟩ := run_writeAt_id hnow1.sound hid
    (by rw [hnow1.view _ hid, setId_same]) 0 (uintBytes (content.length % 2 ^ 32))
  rw [overlay_nil] at hnow2
  have hchain := hnow1.set hnow2
  rw [setId_setId] at hchain
  refine ⟨sized, hchain, fun after hafter => ?_⟩
  simp only [storeFile, EStateM.run_bind, show toHex (store.sha.hash content) =
    store.idOf content from rfl, run_pathText hid, EStateM.run_tryCatch_eq, run_present, hresolve,
    Option.map_none, Option.isSome_none, Bool.false_eq_true, if_false, hopened, hsized]
  by_cases hsmall : content.length % 2 ^ 32 ≤ store.blocksize
  · simp only [fillHeader, if_pos hsmall, EStateM.run_bind] at hafter ⊢
    cases hwrite : (writeAt (store.uniqueDir ++ shard (store.idOf content)) 4 content :
        Storage Unit).run sized with
    | ok _ last =>
        rw [hwrite] at hafter
        obtain ⟨-, rfl⟩ := EStateM.Result.ok.inj hafter
        rfl
    | error fault last => simp [hwrite] at hafter
  · simp only [fillHeader, if_neg hsmall] at hafter ⊢
    simp only [EStateM.run_bind, hafter]
    rfl

/-- `store_file` of a new file whose recorded length fits into a block. -/
theorem run_storeFile_inline (hsound : Sound store world.tree) (memory : Memory) {content : Bytes}
    (hsmall : content.length % 2 ^ 32 ≤ store.blocksize)
    (hnew : store.view world.tree (store.idOf content) = none) :
    ∃ after, (store.storeFile memory (some content)).run world =
        .ok (true, store.idOf content) after ∧
      Now store world.tree after.tree (setId (store.view world.tree) (store.idOf content)
        (some (uintBytes (content.length % 2 ^ 32) ++ content))) := by
  have hid := store.hexId_idOf content
  obtain ⟨sized, hsized, hfill⟩ := run_storeFile_header hsound memory hnew
  obtain ⟨after, hafter, hnow⟩ := run_writeAt_id hsized.sound hid
    (by rw [hsized.view _ hid, setId_same]) 4 content
  have hover : overlay (uintBytes (content.length % 2 ^ 32)) 4 content =
      uintBytes (content.length % 2 ^ 32) ++ content := overlay_length _ content
  have hchain := hsized.set hnow
  rw [setId_setId, hover] at hchain
  refine ⟨after, hfill after ?_, hchain⟩
  simp only [fillHeader, if_pos hsmall, EStateM.run_bind, hafter]
  rfl

/-- The first blocks of a file and their ids were added to the header with its size. -/
theorem Now.setListed {before sized after : FileTree} {memory : Memory} {content : Bytes}
    {size count : Nat} (h : Now store before sized
      (setId (store.view before) (store.idOf content) (some (uintBytes size))))
    (hdone : Now store sized after (setId
      (store.setBlocks memory content (store.view sized) (List.range' 0 count))
      (store.idOf content) (some (uintBytes size ++
        ((List.range' 0 count).map (store.blockId memory content)).flatten)))) :
    Now store before after (store.setListed memory content size count (store.view before)) := by
  refine (h.trans hdone).congr fun id hid => ?_
  rw [AnarchNet.Blockstore.setListed]
  by_cases heq : id = store.idOf content
  · rw [heq, setId_same, setId_same]
  · rw [setId_other _ _ heq, setId_other _ _ heq]
    refine setBlocks_congr ?_ _
    rw [h.view id hid, setId_other _ _ heq]

/-- `store_file` of a new file whose recorded length does not fit into a block. -/
theorem run_storeFile_listed (hsound : Sound store world.tree) (memory : Memory) {content : Bytes}
    {size : Nat} (hmod : content.length % 2 ^ 32 = size) (hbig : store.blocksize < size)
    (hnew : store.view world.tree (store.idOf content) = none)
    (hrounds : ∀ number < size / store.blocksize + 1, RightRound store content number)
    (halias : ∀ number < size / store.blocksize + 1,
      store.blockId memory content number ≠ store.idOf content) :
    ∃ after, (store.storeFile memory (some content)).run world =
        .ok (true, store.idOf content) after ∧
      Now store world.tree after.tree (store.setListed memory content size
        (size / store.blocksize + 1) (store.view world.tree)) := by
  have hid := store.hexId_idOf content
  obtain ⟨sized, hsized, hfill⟩ := run_storeFile_header hsound memory hnew
  rw [hmod] at hsized
  rw [← Nat.zero_add (size / store.blocksize + 1)] at hrounds halias
  have hstream : (OutStream.opened.write memory.direct (uintBytes size)).length =
      (uintBytes size).length := OutStream.length_write.trans (Nat.zero_add _)
  obtain ⟨after, hafter, hnow⟩ := run_storeBlocks hrounds
    (List.length_take_le store.blocksize memory.buffer) hsized.sound hid
    (by rw [hsized.view _ hid, setId_same]) hstream halias
  refine ⟨after, hfill after ?_, hsized.setListed hnow⟩
  simp only [fillHeader, hmod, if_neg (not_le.mpr hbig), hafter]

/-- Storing a new file sets its blocks and its header. -/
theorem run_storeFile_new (hsound : Sound store world.tree) (memory : Memory) {content : Bytes}
    (hsize : content.length < 2 ^ 32)
    (hnew : store.view world.tree (store.idOf content) = none)
    (halias : ∀ number ∈ store.blockIndices content,
      store.blockId memory content number ≠ store.idOf content) :
    ∃ after, (store.storeFile memory (some content)).run world =
        .ok (true, store.idOf content) after ∧
      Now store world.tree after.tree
        (store.setFile memory content (store.view world.tree)) := by
  have hmod : content.length % 2 ^ 32 = content.length := Nat.mod_eq_of_lt hsize
  by_cases hsmall : content.length ≤ store.blocksize
  · obtain ⟨after, hafter, hnow⟩ := run_storeFile_inline hsound memory (by rwa [hmod]) hnew
    rw [hmod] at hnow
    refine ⟨after, hafter, hnow.congr fun id _ => ?_⟩
    rw [setFile, headerBytes, headerBody, if_pos hsmall, blockIndices, if_pos hsmall]
    rfl
  · have hbig := not_le.mp hsmall
    obtain ⟨after, hafter, hnow⟩ := run_storeFile_listed hsound memory hmod hbig hnew
      (fun number hnumber => rightRound_of_lt hsize hbig (by omega)) fun number hnumber =>
        halias number (by rw [blockIndices, if_neg hsmall, List.mem_range'_1]; omega)
    refine ⟨after, hafter, hnow.congr fun id _ => ?_⟩
    rw [setFile, headerBytes, headerBody, if_neg hsmall, blockIndices, if_neg hsmall, setListed]

/-- Removing a stored file. -/
theorem run_removeFile (hsound : Sound store world.tree) {id content : Bytes} (hid : HexId id)
    (hview : store.view world.tree id = some content) :
    ∃ after, (store.removeFile id).run world = .ok true after ∧
      Now store world.tree after.tree (setId (store.view world.tree) id none) := by
  have hsplit : store.uniqueDir ++ shard id =
      store.uniqueDir ++ (shard id).dropLast ++ [id.drop 4] := by
    rw [List.append_assoc]
    rfl
  have hplain := (hid.validPath store.uniqueDir_valid).plain
  have hfile := view_eq_some.mp hview
  rw [hsplit] at hplain hfile
  obtain ⟨after, hrun, hget⟩ := run_remove (ε := Exception) hplain hfile
  rw [← hsplit] at hrun hfile
  simp only [← hsplit] at hget
  refine ⟨after, ?_, hsound.of_removed hget⟩
  simp only [removeFile, EStateM.run_bind, run_pathText hid, hid.components_shardText, hrun]

/-- Removing a file that is not stored. -/
theorem run_removeFile_missing (hsound : Sound store world.tree) {id : Bytes} (hid : HexId id)
    (hview : store.view world.tree id = none) :
    ∃ after, (store.removeFile id).run world = .ok false after ∧ after.tree = world.tree := by
  have hplain := (hid.validPath store.uniqueDir_valid).plain
  have hrun := run_remove_missing (ε := Exception) hsound.links hplain
    ((hsound.view_eq_none hid).mp hview)
  refine ⟨{ world with log := world.log ++ [store.uniqueDir ++ shard id] }, ?_, rfl⟩
  simp only [removeFile, EStateM.run_bind, run_pathText hid, hid.components_shardText, hrun]

/-- A new file in the public directory. -/
theorem run_openOut_pub (hsound : Sound store world.tree) {fid : Bytes} (hfid : HexId fid) :
    ∃ after, (openOut (store.pubDir ++ components fid) : Storage (Option FilePath)).run world =
        .ok (some (store.pubDir ++ [fid])) after ∧
      (∀ path, after.tree.get path =
        if path = store.pubDir ++ [fid] then some (.file []) else world.tree.get path) := by
  have hvalid : ValidPath (store.pubDir ++ [fid]) :=
    validPath_append.2 ⟨store.pubDir_valid, validPath_cons.2 ⟨hfid.validName, validPath_nil⟩⟩
  obtain ⟨after, hrun, hget⟩ := run_openOut (ε := Exception) hsound.links hvalid.plain hsound.pub
    (hsound.published fid hfid) hfid.validName
  refine ⟨after, ?_, hget⟩
  rw [hfid.components_self, hrun]

/-- The bytes that reach a stream that fails at the first empty block. -/
def joined (blocks : List Bytes) : Bytes := (blocks.takeWhile (· ≠ [])).flatten

/-- An empty block ends what reaches the stream. -/
@[simp] theorem joined_nil_cons (blocks : List Bytes) : joined ([] :: blocks) = [] := rfl

/-- Any other block is written. -/
theorem joined_cons {block : Bytes} (h : block ≠ []) (blocks : List Bytes) :
    joined (block :: blocks) = block ++ joined blocks := by
  rw [joined, List.takeWhile_cons_of_pos (by simpa using h), List.flatten_cons, joined]

/-- A change outside the unique directory leaves the map. -/
theorem view_eq_of_outside {before after : FileTree}
    (h : ∀ path, store.uniqueDir <+: path → after.get path = before.get path) (id : Bytes) :
    store.view after id = store.view before id := by
  rw [view, view, FileTree.content, FileTree.content, h _ (List.prefix_append _ _)]

/-- The bytes that `readBlock` returns, if it returns. -/
def blockBytes (tree : FileTree) (out file : FilePath) (stream : OutStream) (failed : Bool) :
    Option Bytes :=
  if failed then some []
  else if file = out then if stream.position = 0 then some [] else none
  else some ((tree.content file).getD [])

/-- Reading a block changes nothing. -/
theorem run_readBlock (out file : FilePath) (stream : OutStream) (failed : Bool) (world : World) :
    (readBlock out file stream failed).run world =
      match blockBytes world.tree out file stream failed with
      | some bytes => .ok bytes world
      | none => .error .undefined world := by
  rw [readBlock, blockBytes]
  cases failed with
  | true => rfl
  | false =>
      by_cases hout : file = out
      · by_cases hposition : stream.position = 0 <;> simp [hout, hposition]
      · simp only [Bool.false_eq_true, if_false, if_neg hout, EStateM.run_bind, run_readAll,
          EStateM.run_pure]

/-- The bytes of a block other than the public file. -/
theorem blockBytes_of_ne {tree : FileTree} {out file : FilePath} (h : file ≠ out)
    (stream : OutStream) (failed : Bool) :
    blockBytes tree out file stream failed =
      some (if failed then [] else (tree.content file).getD []) := by
  cases failed <;> simp [blockBytes, h]

/-- One round of the loop of `load_file` on a block that is there. -/
theorem run_copyBlocks_block {direct : Nat} {out file : FilePath} {bid : Bytes}
    (hbid : 4 ≤ bid.length) (hzero : (0 : UInt8) ∉ bid)
    (hfile : world.tree.resolve (store.uniqueDir ++ components (shardText bid)) = some file)
    (ids : List Bytes) (stream : OutStream) (failed : Bool) :
    ∃ logged : World, logged.tree = world.tree ∧
      (store.copyBlocks direct out (bid :: ids) stream failed).run world =
        match blockBytes world.tree out file stream failed with
        | none => .error .undefined logged
        | some bytes =>
            (if bytes = [] then store.copyBlocks direct out ids stream true
              else do
                writeAt out stream.length bytes
                store.copyBlocks direct out ids (stream.insert direct bytes) false).run logged := by
  refine ⟨{ world with log :=
    world.log ++ [store.uniqueDir ++ components (shardText bid)] }, rfl, ?_⟩
  simp only [copyBlocks, EStateM.run_bind, run_pathText_of_le hbid, if_neg hzero, run_openIn, hfile,
    run_readBlock]
  cases blockBytes world.tree out file stream failed with
  | none => rfl
  | some bytes => rfl

/-- The loop of `load_file` on blocks that are all there. -/
theorem run_copyBlocks {direct : Nat} {out : FilePath} (hout : ¬ store.uniqueDir <+: out)
    {ids blocks : List Bytes} (hids : ∀ id ∈ ids, HexId id) {written : Bytes} {stream : OutStream}
    {failed : Bool} (hblocks : ids.map (store.view world.tree) = blocks.map some)
    (hwritten : world.tree.get out = some (.file written))
    (hstream : stream.length = written.length) :
    ∃ after, (store.copyBlocks direct out ids stream failed).run world = .ok true after ∧
      after.tree.get out = some (.file (written ++ if failed then [] else joined blocks)) := by
  induction ids generalizing blocks written stream failed world with
  | nil =>
      obtain rfl : blocks = [] := by simpa using hblocks.symm
      exact ⟨world, rfl, by simp [hwritten, joined]⟩
  | cons id ids ih =>
      obtain ⟨block, blocks, rfl⟩ := List.exists_cons_of_ne_nil
        (show blocks ≠ [] by rintro rfl; simp at hblocks)
      rw [List.map_cons, List.map_cons, List.cons.injEq] at hblocks
      obtain ⟨hblock, hblocks⟩ := hblocks
      have hid := hids id List.mem_cons_self
      have hrest : ∀ other ∈ ids, HexId other := fun other hother =>
        hids other (List.mem_cons_of_mem _ hother)
      have hfile := view_eq_some.mp hblock
      have hne : store.uniqueDir ++ shard id ≠ out := fun heq =>
        hout (heq ▸ List.prefix_append _ _)
      have hresolve : world.tree.resolve (store.uniqueDir ++ components (shardText id)) =
          some (store.uniqueDir ++ shard id) := by
        rw [hid.components_shardText]
        exact FileTree.resolve_of_get (hid.validPath store.uniqueDir_valid).plain hfile (by simp)
      have hcontent : world.tree.content (store.uniqueDir ++ shard id) = some block := hblock
      have hle : 4 ≤ id.length := by
        rw [hid.length]
        decide
      obtain ⟨logged, htree, hstep⟩ : ∃ logged : World, logged.tree = world.tree ∧
          (store.copyBlocks direct out (id :: ids) stream failed).run world = _ :=
        run_copyBlocks_block hle (hid.not_mem (by decide)) hresolve ids stream failed
      rw [blockBytes_of_ne hne, hcontent, Option.getD_some] at hstep
      rw [hstep]
      rw [← htree] at hwritten hblocks
      by_cases hstop : (if failed then [] else block) = []
      · obtain ⟨after, hafter, hget⟩ : ∃ after,
            (store.copyBlocks direct out ids stream true).run logged = .ok true after ∧
              after.tree.get out = some (.file (written ++ [])) := ih hrest hblocks hwritten hstream
        refine ⟨after, by simp only [if_pos hstop, hafter], ?_⟩
        rw [hget]
        cases failed with
        | true => rfl
        | false =>
            obtain rfl : block = [] := hstop
            rfl
      · obtain rfl : failed = false := by
          cases failed with
          | true => exact absurd rfl hstop
          | false => rfl
        have hbytes : block ≠ [] := hstop
        obtain ⟨middle, hmiddle, hget⟩ :=
          run_writeAt (ε := Exception) stream.length block hwritten
        rw [hstream, overlay_length] at hget
        have hsame : ∀ other, store.view middle.tree other = store.view logged.tree other :=
          view_eq_of_outside fun path hpath => by
            rw [hget, if_neg (fun heq : path = out => hout (heq ▸ hpath))]
        rw [← List.map_congr_left fun other _ => hsame other] at hblocks
        have hmore : middle.tree.get out = some (.file (written ++ block)) := by
          rw [hget, if_pos rfl]
        have hlonger : (stream.insert direct block).length = (written ++ block).length := by
          rw [OutStream.length_insert, hstream, List.length_append]
        obtain ⟨after, hafter, hfinal⟩ : ∃ after,
            (store.copyBlocks direct out ids (stream.insert direct block) false).run middle =
                .ok true after ∧
              after.tree.get out = some (.file (written ++ block ++ joined blocks)) :=
          ih hrest hblocks hmore hlonger
        refine ⟨after, ?_, ?_⟩
        · simp only [Bool.false_eq_true, if_false, if_neg hbytes, EStateM.run_bind, hmiddle, hafter]
        · rw [hfinal, joined_cons hbytes]
          simp

/-- The loop of `load_file` stops at a block that is not there. -/
theorem run_copyBlocks_missing {direct : Nat} {out : FilePath} (hout : ¬ store.uniqueDir <+: out)
    {ids : List Bytes} (hids : ∀ id ∈ ids, HexId id) {stream : OutStream} {failed : Bool}
    (hlinks : world.tree.LinksToFiles) (hblocks : BlockDir store.uniqueDir world.tree)
    (hwritten : ∃ written, world.tree.get out = some (.file written))
    (hmissing : ∃ id ∈ ids, store.view world.tree id = none) :
    ∃ after, (store.copyBlocks direct out ids stream failed).run world = .ok false after := by
  induction ids generalizing stream failed world with
  | nil => simp at hmissing
  | cons id ids ih =>
      have hid := hids id List.mem_cons_self
      have hrest : ∀ other ∈ ids, HexId other := fun other hother =>
        hids other (List.mem_cons_of_mem _ hother)
      have hzero : (0 : UInt8) ∉ id := hid.not_mem (by decide)
      have hplain := (hid.validPath store.uniqueDir_valid).plain
      rcases hblocks.files id hid with hnone | ⟨block, hfile⟩
      · have hresolve := FileTree.resolve_of_missing hlinks.avoidDirs hplain hnone
        simp [copyBlocks, run_pathText hid, hzero, hid.components_shardText, hresolve]
      · have hresolve := FileTree.resolve_of_get hplain hfile (by simp)
        have hlater : ∃ other ∈ ids, store.view world.tree other = none := by
          obtain ⟨other, hother, hview⟩ := hmissing
          rcases List.mem_cons.mp hother with rfl | hother
          · rw [view_eq_some.mpr hfile] at hview
            simp at hview
          · exact ⟨other, hother, hview⟩
        have hne : store.uniqueDir ++ shard id ≠ out := fun heq =>
          hout (heq ▸ List.prefix_append _ _)
        have hle : 4 ≤ id.length := by
          rw [hid.length]
          decide
        rw [← hid.components_shardText] at hresolve
        obtain ⟨logged, htree, hstep⟩ : ∃ logged : World, logged.tree = world.tree ∧
            (store.copyBlocks direct out (id :: ids) stream failed).run world = _ :=
          run_copyBlocks_block hle hzero hresolve ids stream failed
        rw [hid.components_shardText, blockBytes_of_ne hne] at hstep
        rw [hstep]
        rw [← htree] at hlinks hblocks hwritten hlater
        obtain ⟨bytes, hbytes⟩ : ∃ bytes, (if failed = true then [] else
          (world.tree.content (store.uniqueDir ++ shard id)).getD []) = bytes := ⟨_, rfl⟩
        simp only [hbytes]
        split
        · exact ih hrest hlinks hblocks hwritten hlater
        · obtain ⟨written, hwritten⟩ := hwritten
          obtain ⟨middle, hmiddle, hget⟩ :=
            run_writeAt (ε := Exception) stream.length bytes hwritten
          have hsame : ∀ path, store.uniqueDir <+: path →
              middle.tree.get path = logged.tree.get path := fun path hpath => by
            rw [hget, if_neg (fun heq : path = out => hout (heq ▸ hpath))]
          have hlinks' : middle.tree.LinksToFiles := by
            refine hlinks.mono (fun path content hpath => ?_) fun path target hlink => ?_
            · rw [hget]
              split
              · exact ⟨_, rfl⟩
              · exact ⟨content, hpath⟩
            · rw [hget] at hlink
              split at hlink
              · simp at hlink
              · exact Or.inl hlink
          rw [EStateM.run_bind, hmiddle]
          refine ih hrest hlinks' (hblocks.congr fun rest => hsame _ (List.prefix_append _ _))
            ⟨_, by rw [hget, if_pos rfl]⟩ ?_
          obtain ⟨other, hother, hview⟩ := hlater
          exact ⟨other, hother, by rw [view_eq_of_outside hsame, hview]⟩

end Calls

end Blockstore

end AnarchNet
