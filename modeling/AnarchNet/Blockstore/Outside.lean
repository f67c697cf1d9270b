import AnarchNet.Blockstore.Confinement
import AnarchNet.Blockstore.Faults
import AnarchNet.Lib.FileTwin

/-!
# Calls that stay out of the public directory

All calls of the block store but `get_file` read and change the unique and the mid directory only,
as long as no key leads into the public directory. On two trees that differ only below the public
directory such a call does the same, and it leaves alone what lies below.
-/

namespace AnarchNet

open FileSystem EStateM

variable {α β : Type} {R : World → World → Prop} {P : α → β → Prop}

/-- A text of at least four bytes has the same path text in any world. -/
theorem twin_pathText {text : Bytes} (h : 4 ≤ text.length) {nextLeft : Bytes → Storage α}
    {nextRight : Bytes → Storage β}
    (hnext : Twin R P (nextLeft (shardText text)) (nextRight (shardText text))) :
    Twin R P (pathText text >>= nextLeft) (pathText text >>= nextRight) := by
  intro one two hstates
  rw [run_bind, run_bind, run_pathText_of_le h, run_pathText_of_le h]
  exact hnext one two hstates

section Opening

variable {top : FilePath} {left right : List (FilePath × Node)}

/-- Opening a block outside a directory. -/
theorem twin_openBlock {dir : FilePath} {text : Bytes}
    (hdir : Avoids top (dir ++ components (removeFilename text)))
    (hpath : Avoids top (dir ++ components text)) :
    Twin (Outside top left right)
      (fun file other => file = other ∧ ∀ found, file = some found → ¬ top <+: found)
      (openBlock dir text) (openBlock dir text) := by
  refine Twin.bind_eq (twin_ensureDirectory hdir) fun made => ?_
  exact Twin.ite (fun _ => twin_openOut hpath) fun _ => Twin.pure ⟨rfl, by simp⟩

/-- What is done with a file that was opened outside a directory. -/
theorem twin_withFile {opened : Storage (Option FilePath)}
    {nextLeft : Option FilePath → Storage α} {nextRight : Option FilePath → Storage β}
    (hopened : Twin (Outside top left right)
      (fun file other => file = other ∧ ∀ found, file = some found → ¬ top <+: found)
      opened opened)
    (hnone : Twin (Outside top left right) P (nextLeft none) (nextRight none))
    (hsome : ∀ file, ¬ top <+: file →
      Twin (Outside top left right) P (nextLeft (some file)) (nextRight (some file))) :
    Twin (Outside top left right) P (opened >>= nextLeft) (opened >>= nextRight) := by
  refine Twin.bind hopened fun file other hfile => ?_
  obtain ⟨rfl, hout⟩ := hfile
  cases file with
  | none => exact hnone
  | some file => exact hsome file (hout file rfl)

end Opening

namespace Blockstore

variable {store : Blockstore} {left right : List (FilePath × Node)}

/-- Plain paths in the unique directory stay out of the public one. -/
theorem avoids_unique (store : Blockstore) {path : FilePath} (hpath : Plain path) :
    Avoids store.pubDir (store.uniqueDir ++ path) := by
  refine Avoids.of_plain (fun name hname => ?_) fun hpre =>
    store.not_unique_of_pub hpre (List.prefix_append _ _)
  rcases List.mem_append.mp hname with hname | hname
  · exact store.uniqueDir_valid.plain name hname
  · exact hpath name hname

/-- So does the path of an id. -/
theorem avoids_fileAt (store : Blockstore) {id : Bytes} (hid : HexId id) :
    Avoids store.pubDir (store.fileAt id) := by
  rw [fileAt, hid.components_shardText]
  exact store.avoids_unique hid.validPath_shard.plain

/-- Opening the block of an id. -/
theorem twin_openBlock_id (store : Blockstore) {id : Bytes} (hid : HexId id) :
    Twin (Outside store.pubDir left right)
      (fun file other => file = other ∧ ∀ found, file = some found → ¬ store.pubDir <+: found)
      (openBlock store.uniqueDir (shardText id)) (openBlock store.uniqueDir (shardText id)) := by
  refine twin_openBlock ?_ (store.avoids_fileAt hid)
  rw [hid.components_removeFilename]
  exact store.avoids_unique fun name hname =>
    hid.validPath_shard.plain name (List.dropLast_subset _ hname)

/-- An id is long enough for a path. -/
theorem four_le_of_hexId {id : Bytes} (hid : HexId id) : 4 ≤ id.length := by
  rw [hid.length]
  decide

/-- Storing a block stays out of the public directory. -/
theorem twin_storeBlock (store : Blockstore) (content : Bytes) :
    Twin (Outside store.pubDir left right) Eq (store.storeBlock content)
      (store.storeBlock content) := by
  have hid := store.sha.hexId content
  refine twin_pathText (four_le_of_hexId hid) ?_
  refine twin_withFile (store.twin_openBlock_id hid) (Twin.pure rfl) fun file hfile => ?_
  exact Twin.bind_eq (twin_writeAt 0 content hfile) fun _ => Twin.pure rfl

/-- So does storing the blocks of a file whose header lies outside. -/
theorem twin_storeBlocks (store : Blockstore) (memory : Memory) (content : Bytes)
    {header : FilePath} (hheader : ¬ store.pubDir <+: header) (count index : Nat)
    (stream : OutStream) (old : Bytes) :
    Twin (Outside store.pubDir left right) Eq
      (store.storeBlocks memory content header count index stream old)
      (store.storeBlocks memory content header count index stream old) := by
  induction count generalizing index stream old with
  | zero => exact Twin.pure rfl
  | succ count ih =>
      refine Twin.bind_eq ?_ fun stored => Twin.ite (fun _ => ih _ _ _) fun _ => Twin.pure rfl
      have hid := store.sha.hexId
      refine twin_pathText (four_le_of_hexId (hid _)) ?_
      refine twin_withFile (store.twin_openBlock_id (hid _)) (Twin.pure rfl) fun file hfile => ?_
      refine Twin.bind_eq (twin_writeAt _ _ hfile) fun _ => Twin.ite (fun _ => ?_) fun _ => ?_
      · exact Twin.bind_eq (twin_writeAt _ _ hheader) fun _ =>
          Twin.bind_eq (twin_writeAt _ _ hheader) fun _ => Twin.pure rfl
      · exact Twin.bind_eq (twin_writeAt _ _ hheader) fun _ => Twin.pure rfl

/-- So does storing a file. -/
theorem twin_storeFile (store : Blockstore) (memory : Memory) (source : Option Bytes) :
    Twin (Outside store.pubDir left right) Eq (store.storeFile memory source)
      (store.storeFile memory source) := by
  cases source with
  | none => exact Twin.pure rfl
  | some content =>
      have hid := store.sha.hexId content
      refine twin_pathText (four_le_of_hexId hid) ?_
      refine Twin.tryCatch ?_ fun fault => ?_
      · refine Twin.bind_eq (twin_present (store.avoids_fileAt hid)) fun there => ?_
        refine Twin.ite (fun _ => Twin.pure rfl) fun _ => ?_
        refine twin_withFile (store.twin_openBlock_id hid) (Twin.pure rfl) fun header hheader => ?_
        refine Twin.bind_eq (twin_writeAt _ _ hheader) fun _ => Twin.ite (fun _ => ?_) fun _ => ?_
        · exact Twin.bind_eq (twin_writeAt _ _ hheader) fun _ => Twin.pure rfl
        · refine Twin.bind_eq (store.twin_storeBlocks memory content hheader _ _ _ _)
            fun stored => ?_
          exact Twin.ite (fun _ => Twin.pure rfl) fun _ => Twin.pure rfl
      · cases fault with
        | filesystemError => exact Twin.pure rfl
        | _ => exact Twin.throw _

/-- So does removing a file. -/
theorem twin_removeFile (store : Blockstore) {fid : Bytes} (hfid : HexId fid) :
    Twin (Outside store.pubDir left right) Eq (store.removeFile fid) (store.removeFile fid) :=
  twin_pathText (four_le_of_hexId hfid) (twin_remove (store.avoids_fileAt hfid))

end Blockstore

namespace KvBlockstore

variable {store : KvBlockstore} {key : Bytes} {left right : List (FilePath × Node)}

/-- The paths of a key, in the unique directory and in the mid directory, stay out of the public
directory. -/
structure Outlying (store : KvBlockstore) (key : Bytes) : Prop where
  unique : Avoids store.pubDir (store.uniqueAt key)
  mid : ∀ name, ValidName name → Avoids store.pubDir (store.midAt key ++ [name])

namespace Outlying

/-- The directory of the key itself. -/
theorem midAt (h : Outlying store key) : Avoids store.pubDir (store.midAt key) :=
  (h.mid [120] (by decide)).front (List.prefix_append _ _)

/-- An entry of the key, also behind a zero byte. -/
theorem entry (h : Outlying store key) {name : Bytes} (hname : ValidName name) :
    Avoids store.pubDir
      (store.midDir ++ components (shardText (validateKey store.sha key) ++ slash :: name)) := by
  rw [store.entry_path key hname.2.1 hname.2.2.1]
  split
  · exact h.midAt
  · exact h.mid name hname

end Outlying

/-- The keys that are hashed lead nowhere else. -/
theorem outlying_of_hexId (h : HexId (validateKey store.sha key)) : Outlying store key := by
  constructor
  · rw [uniqueAt_eq h]
    exact store.avoids_unique h.validPath_shard.plain
  · intro name hname
    have hvalid : ValidPath (store.midDir ++ (shard (validateKey store.sha key) ++ [name])) :=
      validPath_append.2 ⟨store.midDir_valid, validPath_append.2
        ⟨h.validPath_shard, validPath_cons.2 ⟨hname, validPath_nil⟩⟩⟩
    rw [midAt_eq_keyDir h, keyDir, List.append_assoc]
    refine Avoids.of_plain hvalid.plain fun hpre => ?_
    exact store.not_above_mid _ [] (by rwa [List.append_nil])

/-- The key that is looked up is long enough for a path. -/
theorem four_le_validateKey (store : KvBlockstore) (key : Bytes) :
    4 ≤ (validateKey store.sha key).length :=
  le_trans (by decide) (length_validateKey store.sha key)

/-- Putting a value under a key that leads nowhere else stays out of the public directory. -/
theorem twin_kvPut (h : Outlying store key) (value : Bytes) :
    Twin (Outside store.pubDir left right) Eq (store.kvPut key value) (store.kvPut key value) := by
  refine Twin.ite (fun _ => store.twin_storeBlock value) fun _ => ?_
  refine twin_pathText (store.four_le_validateKey key) ?_
  refine Twin.bind_eq (twin_ensureDirectory (h.midAt.front (store.midHome_prefix key)))
    fun made => Twin.ite (fun _ => ?_) fun _ => Twin.pure rfl
  have hname := (store.sha.hexId value).validName
  refine twin_withFile (twin_openOut (h.entry hname)) (Twin.pure rfl) fun file hfile => ?_
  exact Twin.bind_eq (twin_writeAt 0 value hfile) fun _ => Twin.pure rfl

/-- So does loading the block of a key. -/
theorem twin_loadBlock (h : Outlying store key) :
    Twin (Outside store.pubDir left right) Eq (store.loadBlock (validateKey store.sha key))
      (store.loadBlock (validateKey store.sha key)) := by
  refine twin_pathText (store.four_le_validateKey key) ?_
  refine twin_withFile (twin_openIn h.unique) (Twin.throw _) fun file hfile => ?_
  refine Twin.bind_eq (twin_readAll hfile) fun content => ?_
  cases content with
  | none => exact Twin.throw _
  | some content => exact Twin.pure rfl

/-- So does reading the directory of a key. -/
theorem twin_readMid (platform : Platform) (h : Outlying store key) :
    Twin (Outside store.pubDir left right) Eq
      (store.readMid platform (validateKey store.sha key))
      (store.readMid platform (validateKey store.sha key)) := by
  refine Twin.tryCatch (twin_pathText (store.four_le_validateKey key) ?_) fun fault => ?_
  · refine Twin.bind_eq (twin_isDirectory h.midAt) fun isDir => Twin.ite (fun _ => ?_)
      fun _ => Twin.pure rfl
    refine Twin.bind (twin_listDirectory platform.listing h.midAt) fun names other hlisted => ?_
    obtain ⟨rfl, hnames⟩ := hlisted
    cases names with
    | nil =>
        rcases FFStore.flowed_cases platform with ⟨found, -, hflow⟩ | ⟨-, hflow⟩
        · exact hflow ▸ Twin.pure rfl
        · exact hflow ▸ Twin.throw _
    | cons name names =>
        refine twin_withFile (twin_openIn (h.entry (hnames name List.mem_cons_self)))
          (Twin.pure rfl) fun file hfile => ?_
        refine Twin.bind_eq (twin_readAll hfile) fun content => ?_
        cases content with
        | none => exact Twin.pure rfl
        | some content => exact Twin.pure rfl
  · cases fault with
    | filesystemError => exact Twin.pure rfl
    | _ => exact Twin.throw _

/-- So does removing the entries of a key. -/
theorem twin_removeEntries (h : Outlying store key) {names : List Name}
    (hnames : ∀ name ∈ names, ValidName name) :
    Twin (Outside store.pubDir left right) Eq
      (store.removeEntries (shardText (validateKey store.sha key)) names)
      (store.removeEntries (shardText (validateKey store.sha key)) names) := by
  induction names with
  | nil => exact Twin.pure rfl
  | cons name names ih =>
      refine Twin.bind_eq (twin_remove (h.entry (hnames name List.mem_cons_self))) fun removed => ?_
      exact Twin.ite (fun _ => ih fun other hother => hnames other (List.mem_cons_of_mem _ hother))
        fun _ => Twin.pure rfl

/-- So does removing a key. -/
theorem twin_kvRemove (platform : Platform) (h : Outlying store key) :
    Twin (Outside store.pubDir left right) Eq (store.kvRemove platform key)
      (store.kvRemove platform key) := by
  refine twin_pathText (store.four_le_validateKey key) ?_
  refine Twin.bind_eq (twin_remove h.unique) fun removed => Twin.ite (fun _ => Twin.pure rfl)
    fun _ => ?_
  refine Twin.bind (twin_listDirectory platform.listing h.midAt) fun names other hlisted => ?_
  obtain ⟨rfl, hnames⟩ := hlisted
  refine Twin.bind_eq (twin_removeEntries h hnames) fun cleared => ?_
  exact Twin.ite (fun _ => twin_remove h.midAt) fun _ => Twin.pure rfl

end KvBlockstore

end AnarchNet
