import AnarchNet.Blockstore.Specs
import Mathlib.Algebra.Order.BigOperators.Group.List
import Mathlib.Algebra.Order.Group.Nat

/-!
# Round trips through the block store

What `load_file` publishes for a header, and when a file that was stored comes back as it was. The
writer keeps a file of up to a block in its header while the reader looks for one there only if the
length fits into the block too, and the blocks of a bigger file share the place of another block
that is hashed as the same string.
-/

namespace AnarchNet

open FileSystem

/-- The four bytes of a `uint` hold it. -/
theorem uintValue_uintBytes {number : Nat} (h : number < 2 ^ 32) :
    uintValue (uintBytes number) = number := by
  simp only [uintValue, uintBytes, List.foldr_cons, List.foldr_nil, UInt8.toNat_ofNat']
  omega

/-- A text that starts with a whole piece. -/
theorem wholePieces_append {size : Nat} (hsize : 0 < size) {piece : Bytes}
    (hpiece : piece.length = size) (text : Bytes) :
    wholePieces size (piece ++ text) = piece :: wholePieces size text := by
  have hcount : (piece ++ text).length / size = text.length / size + 1 := by
    rw [List.length_append, hpiece, Nat.add_comm, Nat.add_div_right _ hsize]
  rw [wholePieces, hcount, List.range_succ_eq_map, List.map_cons, List.map_map, wholePieces]
  congr 1
  · rw [Nat.zero_mul, List.drop_zero, ← hpiece, List.take_left]
  · refine List.map_congr_left fun index _ => ?_
    have hdrop : (index + 1) * size = piece.length + index * size := by
      rw [hpiece, Nat.add_mul, Nat.one_mul, Nat.add_comm]
    simp [hdrop]

/-- Pieces that were put together are found again. -/
theorem wholePieces_flatten {size : Nat} (hsize : 0 < size) {pieces : List Bytes}
    (h : ∀ piece ∈ pieces, piece.length = size) : wholePieces size pieces.flatten = pieces := by
  induction pieces with
  | nil => simp [wholePieces]
  | cons piece pieces ih =>
      rw [List.flatten_cons, wholePieces_append hsize (h piece List.mem_cons_self),
        ih fun other hother => h other (List.mem_cons_of_mem _ hother)]

namespace Blockstore

variable {store : Blockstore} {world : World}

/-- The public file of an id. -/
def pubFile (store : Blockstore) (fid : Bytes) : FilePath := store.pubDir ++ [fid]

/-- `load_file` opens the header and an empty public file, and goes on from there. -/
theorem run_loadFile (hsound : Sound store world.tree) (memory : Memory) {fid header : Bytes}
    (hfid : HexId fid) (hheader : store.view world.tree fid = some header) :
    ∃ opened : World,
      (∀ path, opened.tree.get path =
        if path = store.pubFile fid then some (.file []) else world.tree.get path) ∧
      (store.loadFile memory fid).run world =
        match (store.publish memory (store.pubFile fid) (store.pubFile fid) (some header)).run
          opened with
        | .ok file after => .ok file after
        | .error .filesystemError after => .ok ⟨none, false⟩ after
        | .error other after => .error other after := by
  obtain ⟨logged, hlogged⟩ : ∃ logged : World, logged = { world with log :=
    world.log ++ [store.uniqueDir ++ components (shardText fid)] } := ⟨_, rfl⟩
  have htree : logged.tree = world.tree := by rw [hlogged]
  obtain ⟨opened, hopened, hget⟩ := run_openOut_pub (htree ▸ hsound) hfid
  rw [hfid.components_self] at hopened
  have hresolve := hsound.resolve_id hfid
  rw [hheader, Option.map_some] at hresolve
  have hout : ∀ path, store.uniqueDir <+: path → path ≠ store.pubDir ++ [fid] :=
    fun path hpath heq => store.not_unique_of_pub (List.prefix_append _ _) (heq ▸ hpath)
  have hread : opened.tree.content (store.uniqueDir ++ shard fid) = some header := by
    rw [FileTree.content, hget, if_neg (hout _ (List.prefix_append _ _)), htree,
      view_eq_some.mp hheader]
  refine ⟨opened, fun path => by rw [hget, htree]; rfl, ?_⟩
  simp only [loadFile, EStateM.run_tryCatch_eq, EStateM.run_bind, run_pathText hfid, run_openIn,
    hresolve, ← hlogged, hopened, run_readAll, hread, hfid.components_self, pubFile]
  cases (store.publish memory (store.pubDir ++ [fid]) (store.pubDir ++ [fid])
    (some header)).run opened with
  | ok file after => rfl
  | error fault after => cases fault <;> rfl

/-- The first four bytes of a header hold the length of the file. -/
theorem uintValue_header {number : Nat} (h : number < 2 ^ 32) (body rest : Bytes) :
    uintValue (((uintBytes number ++ body).take 4 ++ rest).take 4) = number := by
  have hlength : (uintBytes number).length = 4 := rfl
  rw [List.take_left' hlength, List.take_left' hlength, uintValue_uintBytes h]

/-- A header whose length leaves room for it in a block: that many of the bytes behind it are
published, and if they are too few, what the buffer held. -/
theorem run_loadFile_inline (hsound : Sound store world.tree) (memory : Memory)
    {fid body : Bytes} {size : Nat} (hfid : HexId fid)
    (hheader : store.view world.tree fid = some (uintBytes size ++ body))
    (hsize : size ≤ store.blocksize - 4) :
    ∃ after, (store.loadFile memory fid).run world =
        .ok ⟨some (store.pubFile fid), true⟩ after ∧
      after.tree.get (store.pubFile fid) = some (.file
        ((body.take size ++ memory.buffer.drop (body.take size).length).take size)) := by
  obtain ⟨opened, hget, hrun⟩ := run_loadFile hsound memory hfid hheader
  have hlt : size < 2 ^ 32 := by
    have := store.units_lt
    unfold blocksize at hsize
    omega
  obtain ⟨after, hafter, hfinal⟩ := run_writeAt (ε := Exception) 0
    ((body.take size ++ memory.buffer.drop (body.take size).length).take size)
    (show opened.tree.get (store.pubFile fid) = some (.file []) by rw [hget, if_pos rfl])
  refine ⟨after, ?_, by rw [hfinal, if_pos rfl, overlay_nil]⟩
  have hdrop : (uintBytes size ++ body).drop 4 = body := List.drop_left' rfl
  rw [hrun]
  simp only [publish, Option.getD_some, uintValue_header hlt, hsize, if_true, hdrop,
    EStateM.run_bind, hafter]
  rfl

/-- A header with the bytes of a file that leaves room for the length in a block. -/
theorem run_loadFile_small (hsound : Sound store world.tree) (memory : Memory)
    {fid content : Bytes} (hfid : HexId fid)
    (hheader : store.view world.tree fid = some (uintBytes content.length ++ content))
    (hsize : content.length ≤ store.blocksize - 4) :
    ∃ after, (store.loadFile memory fid).run world =
        .ok ⟨some (store.pubFile fid), true⟩ after ∧
      after.tree.get (store.pubFile fid) = some (.file content) := by
  obtain ⟨after, hafter, hget⟩ := run_loadFile_inline hsound memory hfid hheader hsize
  refine ⟨after, hafter, ?_⟩
  rw [hget, List.take_length, List.take_left]

/-- A header whose length leaves no room for it in a block: what follows is read as ids. -/
theorem run_publish_big (memory : Memory) (path out : FilePath) {size : Nat} {body : Bytes}
    (hbig : store.blocksize - 4 < size) (hsize : size < 2 ^ 32) :
    (store.publish memory path out (some (uintBytes size ++ body))).run world =
      match (store.copyBlocks memory.direct out (wholePieces hashSize body) .opened false).run
        world with
      | .ok true after => .ok ⟨some path, true⟩ after
      | .ok false after => .ok ⟨none, false⟩ after
      | .error fault after => .error fault after := by
  have hdrop : (uintBytes size ++ body).drop 4 = body := List.drop_left' rfl
  simp only [publish, Option.getD_some, uintValue_header hsize, if_neg (not_le.mpr hbig), hdrop,
    Option.isNone_some, Bool.false_eq_true, if_false, EStateM.run_bind]
  rcases (store.copyBlocks memory.direct out (wholePieces hashSize body) .opened false).run
    world with ⟨_ | _, after⟩ | ⟨fault, after⟩ <;> rfl

/-- A header with block ids: the blocks are published if they are all there. -/
theorem run_loadFile_big (hsound : Sound store world.tree) (memory : Memory) {fid : Bytes}
    {ids : List Bytes} {size : Nat} (hfid : HexId fid) (hids : ∀ id ∈ ids, HexId id)
    (hheader : store.view world.tree fid = some (uintBytes size ++ ids.flatten))
    (hbig : store.blocksize - 4 < size) (hsize : size < 2 ^ 32) :
    (∀ blocks, ids.map (store.view world.tree) = blocks.map some →
      ∃ after, (store.loadFile memory fid).run world =
          .ok ⟨some (store.pubFile fid), true⟩ after ∧
        after.tree.get (store.pubFile fid) = some (.file (joined blocks))) ∧
    ((∃ id ∈ ids, store.view world.tree id = none) →
      ∃ after, (store.loadFile memory fid).run world = .ok ⟨none, false⟩ after) := by
  obtain ⟨opened, hget, hrun⟩ := run_loadFile hsound memory hfid hheader
  have hout : ¬ store.uniqueDir <+: store.pubFile fid :=
    store.not_unique_of_pub (List.prefix_append _ _)
  have hsame : ∀ path, store.uniqueDir <+: path → opened.tree.get path = world.tree.get path :=
    fun path hpath => by
      rw [hget, if_neg (fun heq : path = store.pubFile fid => hout (heq ▸ hpath))]
  have hempty : opened.tree.get (store.pubFile fid) = some (.file []) := by rw [hget, if_pos rfl]
  have hpieces : wholePieces hashSize ids.flatten = ids :=
    wholePieces_flatten (by decide) fun id hid => (hids id hid).length
  rw [hrun, run_publish_big memory _ _ hbig hsize, hpieces]
  constructor
  · intro blocks hblocks
    rw [← List.map_congr_left fun id _ => view_eq_of_outside hsame id] at hblocks
    obtain ⟨after, hafter, hfinal⟩ : ∃ after,
        (store.copyBlocks memory.direct (store.pubFile fid) ids .opened false).run opened =
            .ok true after ∧
          after.tree.get (store.pubFile fid) = some (.file ([] ++ joined blocks)) :=
      run_copyBlocks hout hids hblocks hempty rfl
    rw [hafter]
    exact ⟨after, rfl, hfinal⟩
  · rintro ⟨id, hid, hnone⟩
    have hlinks : opened.tree.LinksToFiles := by
      refine hsound.links.mono (fun path content hpath => ?_) fun path target hlink => ?_
      · rw [hget]
        split
        · exact ⟨[], rfl⟩
        · exact ⟨content, hpath⟩
      · rw [hget] at hlink
        split at hlink
        · simp at hlink
        · exact Or.inl hlink
    obtain ⟨after, hafter⟩ : ∃ after,
        (store.copyBlocks memory.direct (store.pubFile fid) ids .opened false).run opened =
          .ok false after :=
      run_copyBlocks_missing hout hids hlinks
        (hsound.blocks.congr fun rest => hsame _ (List.prefix_append _ _)) ⟨[], hempty⟩
        ⟨id, hid, by rw [view_eq_of_outside hsame, hnone]⟩
    rw [hafter]
    exact ⟨after, rfl⟩

/-- An empty store: the two directories are there, with nothing in them, and the links of the
file system lead to files. -/
structure Empty (store : Blockstore) (tree : FileTree) : Prop where
  unique : tree.get store.uniqueDir = some .dir
  uniqueEmpty : ∀ rest, rest ≠ [] → tree.get (store.uniqueDir ++ rest) = none
  pub : tree.get store.pubDir = some .dir
  pubEmpty : ∀ rest, rest ≠ [] → tree.get (store.pubDir ++ rest) = none
  links : tree.LinksToFiles

namespace Empty

variable {tree : FileTree}

/-- Nothing is stored in an empty store. -/
theorem view_eq_none (h : Empty store tree) (id : Bytes) : store.view tree id = none := by
  rw [view, FileTree.content, h.uniqueEmpty _ (by simp [shard])]

/-- An empty store is sound. -/
theorem sound (h : Empty store tree) : Sound store tree := by
  refine ⟨⟨h.unique, fun id above hid habove hne => ?_, fun id hid => ?_⟩, h.pub, fun id hid => ?_,
    h.links, fun path target hlink hunique => ?_⟩
  · by_cases hnil : above = []
    · rw [hnil, List.append_nil]
      exact Or.inr h.unique
    · exact Or.inl (h.uniqueEmpty above hnil)
  · exact Or.inl (h.uniqueEmpty _ (by simp [shard]))
  · exact Or.inl (h.pubEmpty _ (by simp))
  · obtain ⟨rest, rfl⟩ := hunique
    obtain ⟨-, content, hfile⟩ := h.links path _ hlink
    by_cases hnil : rest = []
    · rw [hnil, List.append_nil, h.unique] at hfile
      simp at hfile
    · rw [h.uniqueEmpty rest hnil] at hfile
      simp at hfile

end Empty

/-- The file system on which nothing but the two directories was made. -/
def fresh (store : Blockstore) : World := freshDirs store.uniqueDir store.pubDir

/-- The nodes of the fresh store. -/
theorem get_fresh (store : Blockstore) (path : FilePath) :
    store.fresh.tree.get path =
      if path <+: store.uniqueDir ∨ path <+: store.pubDir then some .dir else none :=
  get_freshDirs store.uniqueDir_valid store.pubDir_valid path

/-- The fresh store is empty. -/
theorem empty_fresh (store : Blockstore) : Empty store store.fresh.tree := by
  refine ⟨?_, fun rest hrest => ?_, ?_, fun rest hrest => ?_, fun path target hlink => ?_⟩
  · rw [get_fresh, if_pos (Or.inl (List.prefix_refl _))]
  · rw [get_fresh, if_neg]
    rintro (hpre | hpre)
    · exact hrest (eq_nil_of_append_le hpre)
    · exact store.unique_not_pub ((List.prefix_append _ _).trans hpre)
  · rw [get_fresh, if_pos (Or.inr (List.prefix_refl _))]
  · rw [get_fresh, if_neg]
    rintro (hpre | hpre)
    · exact store.pub_not_unique ((List.prefix_append _ _).trans hpre)
    · exact hrest (eq_nil_of_append_le hpre)
  · rw [get_fresh] at hlink
    split at hlink <;> simp at hlink

/-- The fresh store is on a file system without files. -/
theorem fresh_noFiles (store : Blockstore) (path : FilePath) (content : Bytes) :
    store.fresh.tree.get path ≠ some (.file content) := by
  rw [get_fresh]
  split <;> simp

/-- `initialise` with the default directory names, `blockstore/data/unique` and
`blockstore/public` in the data directory of the daemon, the default cache size and a block size
in kB. -/
def initialise (sha : Sha512) (datadir : FilePath) (hvalid : ValidPath datadir) (units : Nat)
    (hpos : 0 < units) (hlt : 1024 * units < 2 ^ 32) : Blockstore where
  sha := sha
  uniqueDir := datadir ++ [[98, 108, 111, 99, 107, 115, 116, 111, 114, 101], [100, 97, 116, 97],
    [117, 110, 105, 113, 117, 101]]
  pubDir := datadir ++ [[98, 108, 111, 99, 107, 115, 116, 111, 114, 101],
    [112, 117, 98, 108, 105, 99]]
  uniqueDir_valid := validPath_append.2 ⟨hvalid, by decide⟩
  pubDir_valid := validPath_append.2 ⟨hvalid, by decide⟩
  unique_not_pub := by
    rw [List.prefix_append_right_inj]
    decide
  pub_not_unique := by
    rw [List.prefix_append_right_inj]
    decide
  units := units
  units_pos := hpos
  units_lt := hlt
  cacheSize := 16
  cacheSize_pos := by decide

/-- `get_file` with an empty cache loads the file. -/
theorem run_getFile {memory : Memory} {fid : Bytes} {file : PublicFile} {after : World}
    (h : (store.loadFile memory fid).run world = .ok file after) :
    (store.getFile memory [] fid).run world =
      .ok (if file.good then (true, file.path, [(fid, file)]) else (false, none, [(fid, file)]))
        after := by
  simp only [getFile, cached, List.lookup_nil, EStateM.run_bind, h, EStateM.run_pure]
  split <;> rfl

/-- Storing a file and getting it back from an empty cache: the calls succeed, and the public file
holds the bytes. -/
def RoundTrips (store : Blockstore) (memory later : Memory) (world : World) (content : Bytes) :
    Prop :=
  ∃ stored published path cache,
    (store.storeFile memory (some content)).run world =
        .ok (true, toHex (store.sha.hash content)) stored ∧
      (store.getFile later [] (toHex (store.sha.hash content))).run stored =
        .ok (true, some path, cache) published ∧
      published.tree.content path = some content

/-- A round trip in terms of what `load_file` publishes. -/
theorem roundTrips_of_loaded {memory later : Memory} {content bytes : Bytes} {stored after : World}
    (hstore : (store.storeFile memory (some content)).run world =
      .ok (true, store.idOf content) stored)
    (hload : (store.loadFile later (store.idOf content)).run stored =
      .ok ⟨some (store.pubFile (store.idOf content)), true⟩ after)
    (hbytes : after.tree.get (store.pubFile (store.idOf content)) = some (.file bytes)) :
    store.RoundTrips memory later world content ↔ bytes = content := by
  have hget := run_getFile hload
  rw [if_pos rfl] at hget
  have hcontent : after.tree.content (store.pubFile (store.idOf content)) = some bytes := by
    rw [FileTree.content, hbytes]
  constructor
  · rintro ⟨stored', published, path, cache, hstore', hget', hpath⟩
    obtain ⟨-, rfl⟩ : _ ∧ stored = stored' := by simpa using hstore.symm.trans hstore'
    have heq := hget.symm.trans hget'
    simp only [EStateM.Result.ok.injEq, Prod.mk.injEq, Option.some.injEq] at heq
    obtain ⟨⟨-, rfl, -⟩, rfl⟩ := heq
    rw [hcontent, Option.some.injEq] at hpath
    exact hpath
  · rintro rfl
    exact ⟨stored, after, _, _, hstore, hget, hcontent⟩

/-! ## Files of one block -/

/-- Every file is empty or longer than this. -/
def LongFiles (bound : Nat) (tree : FileTree) : Prop :=
  ∀ path content, tree.get path = some (.file content) → content = [] ∨ bound < content.length

/-- What is read from a file is empty or long. -/
theorem LongFiles.content {bound : Nat} {tree : FileTree} (h : LongFiles bound tree)
    (file : FilePath) :
    (tree.content file).getD [] = [] ∨ bound < ((tree.content file).getD []).length := by
  unfold FileTree.content
  split
  · next content hfile => exact h file content hfile
  · exact Or.inl rfl

/-- Writing something long keeps the files long. -/
theorem LongFiles.write {bound : Nat} {tree : FileTree} (h : LongFiles bound tree)
    (file : FilePath) (position : Nat) {bytes : Bytes} (hbytes : bound < bytes.length) :
    LongFiles bound
      (tree.write file (overlay ((tree.content file).getD []) position bytes)) := by
  intro path content hget
  rw [FileTree.get_write] at hget
  split at hget
  · obtain ⟨node, -, hnode⟩ := Option.map_eq_some_iff.mp hget
    cases node with
    | file old =>
        right
        obtain rfl := Node.file.inj hnode
        rw [overlay, List.length_append, List.length_append]
        omega
    | dir => simp [FileTree.Node.rewrite] at hnode
    | link target => simp [FileTree.Node.rewrite] at hnode
  · exact h path content hget

/-- The bytes of a block are none or many. -/
theorem LongFiles.blockBytes {bound : Nat} {tree : FileTree} (h : LongFiles bound tree)
    {out file : FilePath} {stream : OutStream} {failed : Bool} {bytes : Bytes}
    (hbytes : blockBytes tree out file stream failed = some bytes) :
    bytes = [] ∨ bound < bytes.length := by
  by_cases hout : file = out
  · left
    cases failed <;> simp_all [AnarchNet.Blockstore.blockBytes]
  · rw [blockBytes_of_ne hout, Option.some.injEq] at hbytes
    rw [← hbytes]
    cases failed with
    | true => exact Or.inl rfl
    | false => exact h.content file

/-- The loop of `load_file` over any ids copies only long files. -/
theorem LongFiles.copyBlocks {bound direct : Nat} {out : FilePath} (ids : List Bytes)
    {stream : OutStream} {failed : Bool} (h : LongFiles bound world.tree) :
    LongFiles bound ((store.copyBlocks direct out ids stream failed).run world).state.tree := by
  induction ids generalizing stream failed world with
  | nil => exact h
  | cons bid ids ih =>
      cases htext : hashToPath bid with
      | none =>
          simp only [AnarchNet.Blockstore.copyBlocks, pathText, htext, EStateM.run_bind,
            EStateM.run_throw_eq]
          exact h
      | some text =>
          by_cases hzero : (0 : UInt8) ∈ bid
          · simp only [AnarchNet.Blockstore.copyBlocks, pathText, htext, EStateM.run_bind,
              EStateM.run_pure, if_pos hzero, EStateM.run_throw_eq]
            exact h
          · cases hresolve : world.tree.resolve (store.uniqueDir ++ components text) with
            | none =>
                simp only [AnarchNet.Blockstore.copyBlocks, pathText, htext, EStateM.run_bind,
                  EStateM.run_pure, if_neg hzero, run_openIn, hresolve]
                exact h
            | some file =>
                simp only [AnarchNet.Blockstore.copyBlocks, pathText, htext, EStateM.run_bind,
                  EStateM.run_pure, if_neg hzero, run_openIn, hresolve, run_readBlock]
                cases hbytes : AnarchNet.Blockstore.blockBytes world.tree out file stream failed with
                | none => exact h
                | some bytes =>
                    by_cases hnil : bytes = []
                    · simp only [if_pos hnil]
                      exact ih h
                    · simp only [if_neg hnil]
                      exact ih (h.write out stream.length ((h.blockBytes hbytes).resolve_left hnil))

/-- The map after a small file was stored. -/
theorem setFile_small {memory : Memory} {content : Bytes} (map : Bytes → Option Bytes)
    (h : content.length ≤ store.blocksize) :
    store.setFile memory content map =
      setId map (store.idOf content) (some (uintBytes content.length ++ content)) := by
  rw [setFile, headerBytes, headerBody, if_pos h, blockIndices, if_pos h]
  rfl

/-- A header that is too long for the reader is not published as the file it holds, if there is
no other file to publish. -/
theorem not_published_of_longFiles (hsound : Sound store world.tree) (memory : Memory)
    {fid content : Bytes} {size : Nat} {file : PublicFile} {after : World} {path : FilePath}
    (hfid : HexId fid) (hheader : store.view world.tree fid = some (uintBytes size ++ content))
    (hbig : store.blocksize - 4 < size) (hsize : size < 2 ^ 32) (hle : size ≤ content.length)
    (hlong : LongFiles content.length world.tree)
    (hload : (store.loadFile memory fid).run world = .ok file after) :
    after.tree.content path ≠ some content := by
  obtain ⟨opened, hget, hrun⟩ := run_loadFile hsound memory hfid hheader
  have hopened : LongFiles content.length opened.tree := by
    intro other bytes hother
    rw [hget] at hother
    split at hother
    · left
      simpa using hother.symm
    · exact hlong other bytes hother
  have hcopied : LongFiles content.length ((store.copyBlocks memory.direct (store.pubFile fid)
      (wholePieces hashSize content) .opened false).run opened).state.tree :=
    hopened.copyBlocks (wholePieces hashSize content)
  rw [hrun, run_publish_big memory _ _ hbig hsize] at hload
  have hafter : LongFiles content.length after.tree := by
    rcases hcopy : (store.copyBlocks memory.direct (store.pubFile fid)
      (wholePieces hashSize content) .opened false).run opened with ⟨_ | _, last⟩ | ⟨fault, last⟩
    all_goals rw [hcopy] at hload hcopied
    · obtain ⟨-, rfl⟩ := EStateM.Result.ok.inj hload
      exact hcopied
    · obtain ⟨-, rfl⟩ := EStateM.Result.ok.inj hload
      exact hcopied
    · cases fault with
      | filesystemError =>
          obtain ⟨-, rfl⟩ := EStateM.Result.ok.inj hload
          exact hcopied
      | fileNotFound | outOfRange | runtimeError | message | undefined => simp at hload
  intro hcontent
  have hnot := hafter.content path
  rw [hcontent, Option.getD_some] at hnot
  rcases hnot with rfl | hlt
  · rw [List.length_nil] at hle
    omega
  · omega

/-- A file of at most one block has a length. -/
theorem length_lt_of_small {content : Bytes} (h : content.length ≤ store.blocksize) :
    content.length < 2 ^ 32 := by
  have := store.units_lt
  unfold blocksize at h
  omega

/-- Storing a file of at most one block. -/
theorem run_storeFile_small (hsound : Sound store world.tree) (memory : Memory) {content : Bytes}
    (hnew : store.view world.tree (store.idOf content) = none)
    (hsmall : content.length ≤ store.blocksize) :
    ∃ stored, (store.storeFile memory (some content)).run world =
        .ok (true, store.idOf content) stored ∧
      Now store world.tree stored.tree (setId (store.view world.tree) (store.idOf content)
        (some (uintBytes content.length ++ content))) := by
  obtain ⟨stored, hstored, hnow⟩ := run_storeFile_new hsound memory (length_lt_of_small hsmall)
    hnew (by rw [blockIndices, if_pos hsmall]; simp)
  exact ⟨stored, hstored, setFile_small (store.view world.tree) hsmall ▸ hnow⟩

/-- On a file system without other files, a file that was stored in its header makes all of them
long. -/
theorem longFiles_of_now {size : Nat} {content : Bytes} {stored : World}
    (hempty : Empty store world.tree)
    (hfiles : ∀ path other, world.tree.get path ≠ some (.file other))
    (hnow : Now store world.tree stored.tree (setId (store.view world.tree) (store.idOf content)
      (some (uintBytes size ++ content)))) : LongFiles content.length stored.tree := by
  intro other bytes hother
  rcases hnow.files other bytes hother with hold | ⟨id, hhex, rfl⟩
  · exact absurd hold (hfiles other bytes)
  · have hbytes := view_eq_some.mpr hother
    rw [hnow.view id hhex] at hbytes
    by_cases heq : id = store.idOf content
    · rw [heq, setId_same, Option.some.injEq] at hbytes
      right
      rw [← hbytes, List.length_append]
      simp [uintBytes]
    · rw [setId_other _ _ heq, hempty.view_eq_none] at hbytes
      simp at hbytes

/-- A file that fills its block so far that its length does not fit does not come back. -/
theorem not_roundTrips_of_long (memory later : Memory) {content : Bytes}
    (hempty : Empty store world.tree)
    (hfiles : ∀ path other, world.tree.get path ≠ some (.file other))
    (hsmall : content.length ≤ store.blocksize) (hlong : store.blocksize < content.length + 4) :
    ¬ store.RoundTrips memory later world content := by
  have hid := store.hexId_idOf content
  obtain ⟨stored, hstored, hnow⟩ :=
    run_storeFile_small hempty.sound memory (hempty.view_eq_none _) hsmall
  have hfilesNow := longFiles_of_now hempty hfiles hnow
  rintro ⟨stored', published, path, cache, hstored', hget, hcontent⟩
  obtain ⟨-, rfl⟩ : _ ∧ stored = stored' := by simpa using hstored.symm.trans hstored'
  cases hload : (store.loadFile later (store.idOf content)).run stored with
  | error fault after =>
      rw [show toHex (store.sha.hash content) = store.idOf content from rfl] at hget
      simp [getFile, cached, hload] at hget
  | ok file after =>
      have hgot := run_getFile hload
      rw [show store.idOf content = toHex (store.sha.hash content) from rfl, hget] at hgot
      obtain ⟨-, rfl⟩ := EStateM.Result.ok.inj hgot
      have hblock := store.le_blocksize
      exact not_published_of_longFiles hnow.sound later hid
        (by rw [hnow.view _ hid, setId_same]) (by omega) (length_lt_of_small hsmall) le_rfl
        hfilesNow hload hcontent

/-- A memory that holds nothing. -/
def blankMemory : Memory := ⟨fun _ => [], [], [], 1024, by decide⟩

/-- A file of at most one block comes back from every empty store exactly if four bytes for its
length fit into the block too. -/
theorem roundTrips_small_iff (store : Blockstore) (content : Bytes)
    (hsmall : content.length ≤ store.blocksize) :
    (∀ memory later world, Empty store world.tree →
      store.RoundTrips memory later world content) ↔ content.length + 4 ≤ store.blocksize := by
  constructor
  · intro hround
    by_contra hlong
    exact not_roundTrips_of_long blankMemory blankMemory store.empty_fresh store.fresh_noFiles hsmall
      (not_le.mp hlong) (hround _ _ _ store.empty_fresh)
  · intro hfits memory later world hempty
    have hid := store.hexId_idOf content
    obtain ⟨stored, hstored, hnow⟩ :=
      run_storeFile_small hempty.sound memory (hempty.view_eq_none _) hsmall
    obtain ⟨after, hafter, hget⟩ := run_loadFile_small hnow.sound later hid
      (by rw [hnow.view _ hid, setId_same]) (by omega)
    rw [roundTrips_of_loaded hstored hafter hget]

/-! ## Files of several blocks -/

/-- The blocks up to a number are the front of the file. -/
theorem flatten_blockData (store : Blockstore) (content : Bytes) (count : Nat) :
    ((List.range' 0 count).map (store.blockData content)).flatten =
      content.take (count * store.blocksize) := by
  induction count with
  | zero => simp
  | succ count ih =>
      rw [List.range'_1_concat, List.map_append, List.flatten_append, ih, Nat.zero_add, Nat.add_mul,
        Nat.one_mul, List.take_add]
      simp [blockData]

/-- All blocks together are the file. -/
theorem flatten_blocks (store : Blockstore) (content : Bytes) :
    ((List.range' 0 (content.length / store.blocksize + 1)).map
      (store.blockData content)).flatten = content := by
  rw [flatten_blockData]
  exact List.take_of_length_le (Nat.lt_mul_of_div_lt (Nat.lt_succ_self _) store.blocksize_pos).le

/-- What is left under the id of a block: the last of the blocks with that id. -/
theorem setBlocks_append (memory : Memory) (content : Bytes) (map : Bytes → Option Bytes)
    (indices : List Nat) (index : Nat) :
    store.setBlocks memory content map (indices ++ [index]) =
      setId (store.setBlocks memory content map indices) (store.blockId memory content index)
        (some (store.blockData content index)) := by
  rw [setBlocks, List.foldl_append]
  rfl

/-- Under the id of a block there is a block with that id, whatever was there before. -/
theorem setBlocks_mem (store : Blockstore) (memory : Memory) (content : Bytes)
    {indices : List Nat} {index : Nat} (h : index ∈ indices) :
    ∃ other ∈ indices, store.blockId memory content other = store.blockId memory content index ∧
      ∀ map, store.setBlocks memory content map indices (store.blockId memory content index) =
        some (store.blockData content other) := by
  induction indices using List.reverseRecOn with
  | nil => simp at h
  | append_singleton indices last ih =>
      by_cases heq : store.blockId memory content index = store.blockId memory content last
      · exact ⟨last, by simp, heq.symm, fun map => by rw [setBlocks_append, heq, setId_same]⟩
      · have hne : index ≠ last := fun hsame => heq (by rw [hsame])
        obtain ⟨other, hother, hid, hset⟩ := ih (by simpa [hne] using h)
        exact ⟨other, by simp [hother], hid, fun map => by
          rw [setBlocks_append, setId_other _ _ heq, hset]⟩

/-- An id that no block has keeps what it had. -/
theorem setBlocks_not_mem (memory : Memory) (content : Bytes) (map : Bytes → Option Bytes)
    {indices : List Nat} {id : Bytes}
    (h : ∀ index ∈ indices, store.blockId memory content index ≠ id) :
    store.setBlocks memory content map indices id = map id := by
  induction indices using List.reverseRecOn with
  | nil => rfl
  | append_singleton indices last ih =>
      rw [setBlocks_append, setId_other _ _ (h last (by simp)).symm]
      exact ih fun index hindex => h index (by simp [hindex])

/-- The block that is left under the id of a block after some blocks were stored. -/
def leftAmong (store : Blockstore) (memory : Memory) (content : Bytes) (indices : List Nat)
    (index : Nat) : Bytes :=
  (store.setBlocks memory content (fun _ => none) indices
    (store.blockId memory content index)).getD []

/-- The block that is left under the id of a block. -/
def leftBlock (store : Blockstore) (memory : Memory) (content : Bytes) (index : Nat) : Bytes :=
  (store.setBlocks memory content (fun _ => none) (store.blockIndices content)
    (store.blockId memory content index)).getD []

/-- What reaches the stream is a front part of all the bytes. -/
theorem joined_le_flatten (blocks : List Bytes) : joined blocks <+: blocks.flatten := by
  conv_rhs => rw [← List.takeWhile_append_dropWhile (p := (· ≠ [])) (l := blocks)]
  rw [List.flatten_append]
  exact List.prefix_append _ _

/-- All bytes reach the stream if only the last block may be empty. -/
theorem joined_append {front : List Bytes} (h : ∀ block ∈ front, block ≠ []) (last : Bytes) :
    joined (front ++ [last]) = (front ++ [last]).flatten := by
  induction front with
  | nil =>
      by_cases hlast : last = []
      · simp [hlast]
      · rw [List.nil_append, joined_cons hlast]
        simp [joined]
  | cons block front ih =>
      rw [List.cons_append, joined_cons (h block List.mem_cons_self), List.flatten_cons,
        ih fun other hother => h other (List.mem_cons_of_mem _ hother)]

/-- Blocks that are at most as long as the right ones and together give all the bytes are the
right ones. -/
theorem blocks_eq_of_joined {left right : Nat → Bytes} {indices : List Nat}
    (hle : ∀ index ∈ indices, (left index).length ≤ (right index).length)
    (h : joined (indices.map left) = (indices.map right).flatten) :
    ∀ index ∈ indices, left index = right index := by
  have hsum (blocks : Nat → Bytes) : (indices.map blocks).flatten.length =
      (indices.map fun index => (blocks index).length).sum := by
    rw [List.length_flatten, List.map_map]
    rfl
  have hlength := congrArg List.length h
  have hpre := (joined_le_flatten (indices.map left)).length_le
  have hequal : ∀ index ∈ indices, (left index).length = (right index).length := by
    by_contra hne
    push Not at hne
    obtain ⟨index, hindex, hne⟩ := hne
    have hlt := List.sum_lt_sum _ _ hle ⟨index, hindex, lt_of_le_of_ne (hle index hindex) hne⟩
    rw [hsum] at hlength hpre
    omega
  have hflat : (indices.map left).flatten = (indices.map right).flatten := by
    rw [← h]
    refine ((joined_le_flatten _).eq_of_length ?_).symm
    rw [hlength, hsum, hsum, List.map_congr_left hequal]
  have hlists := List.eq_iff_flatten_eq.mpr ⟨hflat, by
    rw [List.map_map, List.map_map]
    exact List.map_congr_left hequal⟩
  exact List.map_inj_left.mp hlists

/-- The strings that are hashed while a file is stored. -/
def hashedTexts (store : Blockstore) (memory : Memory) (content : Bytes) : List Bytes :=
  content :: (store.blockIndices content).map (store.blockText memory content)

/-- Blocks with the same id are hashed as the same string. -/
theorem blockText_eq_of_blockId {memory : Memory} {content : Bytes}
    (hfree : CollisionFree store.sha (store.hashedTexts memory content)) {left right : Nat}
    (hleft : left ∈ store.blockIndices content) (hright : right ∈ store.blockIndices content)
    (h : store.blockId memory content left = store.blockId memory content right) :
    store.blockText memory content left = store.blockText memory content right :=
  hfree _ (List.mem_cons_of_mem _ (List.mem_map_of_mem hleft)) _
    (List.mem_cons_of_mem _ (List.mem_map_of_mem hright)) (toHex_injective h)

/-- A block that is not hashed as the whole file does not have its id. -/
theorem blockId_ne_idOf {memory : Memory} {content : Bytes}
    (hfree : CollisionFree store.sha (store.hashedTexts memory content))
    (hmemory : ∀ index ∈ store.blockIndices content,
      store.blockText memory content index ≠ content) :
    ∀ index ∈ store.blockIndices content,
      store.blockId memory content index ≠ store.idOf content := fun index hindex heq =>
  hmemory index hindex (hfree _ (List.mem_cons_of_mem _ (List.mem_map_of_mem hindex)) _
    List.mem_cons_self (toHex_injective heq))

/-- A header that lists stored blocks: the blocks that are left are published. -/
theorem run_loadFile_listed (hsound : Sound store world.tree) (memory later : Memory)
    {content : Bytes} {size : Nat} {indices : List Nat} (hbig : store.blocksize - 4 < size)
    (hsize : size < 2 ^ 32)
    (hheader : store.view world.tree (store.idOf content) =
      some (uintBytes size ++ (indices.map (store.blockId memory content)).flatten))
    (hblocks : ∀ index ∈ indices, store.view world.tree (store.blockId memory content index) =
      store.setBlocks memory content (fun _ => none) indices
        (store.blockId memory content index)) :
    ∃ after, (store.loadFile later (store.idOf content)).run world =
        .ok ⟨some (store.pubFile (store.idOf content)), true⟩ after ∧
      after.tree.get (store.pubFile (store.idOf content)) = some (.file
        (joined (indices.map (store.leftAmong memory content indices)))) := by
  have hids : ∀ id ∈ indices.map (store.blockId memory content), HexId id := by
    intro id hmem
    obtain ⟨index, -, rfl⟩ := List.mem_map.mp hmem
    exact store.hexId_blockId memory content index
  have hleft : (indices.map (store.blockId memory content)).map (store.view world.tree) =
      (indices.map (store.leftAmong memory content indices)).map some := by
    rw [List.map_map, List.map_map]
    refine List.map_congr_left fun index hindex => ?_
    obtain ⟨other, -, -, hset⟩ := store.setBlocks_mem memory content hindex
    rw [Function.comp_apply, hblocks index hindex, hset, Function.comp_apply, leftAmong, hset,
      Option.getD_some]
  exact (run_loadFile_big hsound later (store.hexId_idOf content) hids hheader hbig hsize).1 _ hleft

/-- Storing a big file and loading it again publishes the blocks that are left. -/
theorem run_store_and_load (hsound : Sound store world.tree) (memory later : Memory)
    {content : Bytes} (hbig : store.blocksize < content.length) (hsize : content.length < 2 ^ 32)
    (hnew : store.view world.tree (store.idOf content) = none)
    (halias : ∀ index ∈ store.blockIndices content,
      store.blockId memory content index ≠ store.idOf content) :
    ∃ stored after, (store.storeFile memory (some content)).run world =
        .ok (true, store.idOf content) stored ∧
      (store.loadFile later (store.idOf content)).run stored =
        .ok ⟨some (store.pubFile (store.idOf content)), true⟩ after ∧
      after.tree.get (store.pubFile (store.idOf content)) = some (.file
        (joined ((store.blockIndices content).map (store.leftBlock memory content)))) := by
  obtain ⟨stored, hstored, hnow⟩ := run_storeFile_new hsound memory hsize hnew halias
  have hheader : store.view stored.tree (store.idOf content) = some (uintBytes content.length ++
      ((store.blockIndices content).map (store.blockId memory content)).flatten) := by
    rw [hnow.view _ (store.hexId_idOf content), setFile, setId_same, headerBytes, headerBody,
      if_neg (not_le.mpr hbig)]
  obtain ⟨after, hafter, hget⟩ := run_loadFile_listed hnow.sound memory later (by omega) hsize
    hheader fun index hindex => by
      obtain ⟨other, -, -, hset⟩ := store.setBlocks_mem memory content hindex
      rw [hnow.view _ (store.hexId_blockId memory content index), setFile,
        setId_other _ _ (halias index hindex), hset, hset]
  exact ⟨stored, after, hstored, hafter, hget⟩

/-- All blocks but the last are full. -/
theorem length_blockData_full {content : Bytes} {index : Nat}
    (h : index < content.length / store.blocksize) :
    (store.blockData content index).length = store.blocksize := by
  have hmul : (index + 1) * store.blocksize ≤ content.length :=
    (Nat.le_div_iff_mul_le store.blocksize_pos).mp h
  rw [Nat.add_mul, Nat.one_mul] at hmul
  rw [length_blockData]
  omega

/-- If the blocks that are left give the file, each of them is the right one. -/
theorem leftBlock_eq_of_joined {memory : Memory} {content : Bytes}
    (hbig : store.blocksize < content.length)
    (h : joined ((store.blockIndices content).map (store.leftBlock memory content)) = content) :
    ∀ index ∈ store.blockIndices content,
      store.leftBlock memory content index = store.blockData content index := by
  have hindices : store.blockIndices content =
      List.range' 0 (content.length / store.blocksize + 1) := if_neg (not_le.mpr hbig)
  have hflat := store.flatten_blocks content
  rw [← hindices] at hflat
  refine blocks_eq_of_joined (fun index hindex => ?_) (h.trans hflat.symm)
  obtain ⟨other, -, -, hset⟩ := store.setBlocks_mem memory content hindex
  rw [hindices, List.mem_range'_1] at hindex
  rcases Nat.lt_or_ge index (content.length / store.blocksize) with hfull | hlast
  · rw [leftBlock, hset, Option.getD_some, length_blockData_full hfull, length_blockData]
    omega
  · obtain rfl : index = content.length / store.blocksize := by omega
    rw [leftBlock, hindices, List.range'_1_concat, setBlocks_append, Nat.zero_add, setId_same,
      Option.getD_some]

/-- The first blocks are joined to the front of the file: only the last of all can be empty. -/
theorem joined_blockData {content : Bytes} {count : Nat}
    (hcount : count ≤ content.length / store.blocksize + 1) :
    joined ((List.range' 0 count).map (store.blockData content)) =
      content.take (count * store.blocksize) := by
  rw [← flatten_blockData]
  cases count with
  | zero => rfl
  | succ count =>
      rw [List.range'_1_concat, List.map_append, List.map_singleton]
      refine joined_append (fun block hblock => ?_) _
      obtain ⟨index, hindex, rfl⟩ := List.mem_map.mp hblock
      rw [List.mem_range'_1] at hindex
      rw [ne_eq, ← List.length_eq_zero_iff, length_blockData_full (by omega)]
      exact store.blocksize_pos.ne'

/-- The blocks that are left are the right ones exactly if blocks that are hashed as the same
string are equal. -/
theorem joined_leftBlock_iff {memory : Memory} {content : Bytes}
    (hbig : store.blocksize < content.length)
    (hfree : CollisionFree store.sha (store.hashedTexts memory content)) :
    joined ((store.blockIndices content).map (store.leftBlock memory content)) = content ↔
      ∀ left ∈ store.blockIndices content, ∀ right ∈ store.blockIndices content,
        store.blockText memory content left = store.blockText memory content right →
          store.blockData content left = store.blockData content right := by
  constructor
  · intro h left hleft right hright htext
    have hid : store.blockId memory content left = store.blockId memory content right := by
      rw [blockId, blockId, htext]
    rw [← leftBlock_eq_of_joined hbig h left hleft, ← leftBlock_eq_of_joined hbig h right hright,
      leftBlock, leftBlock, hid]
  · intro h
    have hright : ∀ index ∈ store.blockIndices content,
        store.leftBlock memory content index = store.blockData content index := by
      intro index hindex
      obtain ⟨other, hother, hid, hset⟩ := store.setBlocks_mem memory content hindex
      have htext := blockText_eq_of_blockId hfree hother hindex hid
      rw [leftBlock, hset, Option.getD_some, h other hother index hindex htext]
    rw [List.map_congr_left hright, blockIndices, if_neg (not_le.mpr hbig),
      joined_blockData le_rfl]
    exact List.take_of_length_le
      (Nat.lt_mul_of_div_lt (Nat.lt_succ_self _) store.blocksize_pos).le

/-- A file of more than one block comes back from an empty store exactly if its blocks that are
hashed as the same string are equal. The memory behind the block buffer does not happen to
continue a block to the whole file. -/
theorem roundTrips_big_iff (store : Blockstore) (memory later : Memory) (world : World)
    (content : Bytes) (hempty : Empty store world.tree)
    (hbig : store.blocksize < content.length) (hsize : content.length < 2 ^ 32)
    (hfree : CollisionFree store.sha (store.hashedTexts memory content))
    (hmemory : ∀ index ∈ store.blockIndices content,
      store.blockText memory content index ≠ content) :
    store.RoundTrips memory later world content ↔
      ∀ left ∈ store.blockIndices content, ∀ right ∈ store.blockIndices content,
        store.blockText memory content left = store.blockText memory content right →
          store.blockData content left = store.blockData content right := by
  obtain ⟨stored, after, hstored, hafter, hget⟩ := run_store_and_load hempty.sound memory later
    hbig hsize (hempty.view_eq_none _) (blockId_ne_idOf hfree hmemory)
  rw [roundTrips_of_loaded hstored hafter hget, joined_leftBlock_iff hbig hfree]

/-- A file of zero bytes. -/
def zeros (length : Nat) : Bytes := List.replicate length 0

/-- Blocks of 1024 bytes are small enough. -/
theorem one_unit_lt : 1024 * 1 < 2 ^ 32 := by decide

/-- A store in the directory `/data` with blocks of 1024 bytes and the digests of some files of
zero bytes. -/
def zeroStore : Blockstore :=
  initialise (.ofDigests
    [(zeros 0, digest
        0xcf83e1357eefb8bdf1542850d66d8007d620e4050b5715dc83f4a921d36ce9ce
        0x47d0d13c5d85f2b0ff8318d2877eec2f63b931bd47417a81a538327af927da3e),
      (zeros 1, digest
        0xb8244d028981d693af7b456af8efa4cad63d282e19ff14942c246e50d9351d22
        0x704a802a71c3580b6370de4ceb293c324a8423342557d4e5c38438f0e36910ee),
      (zeros 1021, digest
        0xfdd860044f7fab090ed674408d772321d2d9d52faa81ff9aa3458e997b5cc003
        0xb9f1738d5debb72a0a027f40b1017f9404986289a374b08479d94b303185e0e2),
      (zeros 1025, digest
        0x697f1c0117c89ea0486b5b8e9dded787eafcfd710251cef4cf5cc275b1572a5c
        0xf9d499e44fa672aca8a77521a33b2e5040cf69c7cc3947fec2cd75d2296edecf),
      (zeros 2048, digest
        0x8785f615b30c07eb4c5f5d72c9b3663521081581ec670631b28be491f5f7ad6c
        0x6757b9a2025c68471fa3c9db65305804f6ec6dfd15159b02e91c58ad570e92fb)])
    [[100, 97, 116, 97]] validPath_data 1 Nat.one_pos one_unit_lt

/-- A memory without surprises. -/
def zeroMemory : Memory := ⟨fun _ => [0], [], [], 1024, by decide⟩

/-- One zero byte comes back. -/
theorem roundTrips_zeros_1 :
    zeroStore.RoundTrips zeroMemory zeroMemory zeroStore.fresh (zeros 1) :=
  (roundTrips_small_iff zeroStore (zeros 1) (by decide)).mpr (by decide) zeroMemory zeroMemory
    zeroStore.fresh zeroStore.empty_fresh

/-- A file of 1021 zero bytes, three bytes less than a block, does not come back. -/
theorem not_roundTrips_zeros_1021 :
    Empty zeroStore zeroStore.fresh.tree ∧ (zeros 1021).length ≤ zeroStore.blocksize ∧
      ¬ zeroStore.RoundTrips zeroMemory zeroMemory zeroStore.fresh (zeros 1021) :=
  ⟨zeroStore.empty_fresh, by decide +kernel,
    not_roundTrips_of_long zeroMemory zeroMemory zeroStore.empty_fresh zeroStore.fresh_noFiles
      (by decide +kernel) (by decide +kernel)⟩

/-- The blocks of a file of 1025 zero bytes have different names. -/
theorem roundTrips_zeros_1025 :
    zeroStore.RoundTrips zeroMemory zeroMemory zeroStore.fresh (zeros 1025) :=
  (roundTrips_big_iff zeroStore zeroMemory zeroMemory zeroStore.fresh (zeros 1025)
    zeroStore.empty_fresh (by decide +kernel) (by decide +kernel) (by decide +kernel)
    (by decide +kernel)).mpr (by decide +kernel)

/-- The blocks of a file of 2048 zero bytes, the last one empty, are all hashed as the empty
string, and only the last one is left. -/
theorem not_roundTrips_zeros_2048 :
    Empty zeroStore zeroStore.fresh.tree ∧ zeroStore.blocksize < (zeros 2048).length ∧
      (zeros 2048).length < 2 ^ 32 ∧
      CollisionFree zeroStore.sha (zeroStore.hashedTexts zeroMemory (zeros 2048)) ∧
      ¬ zeroStore.RoundTrips zeroMemory zeroMemory zeroStore.fresh (zeros 2048) := by
  have hbig : zeroStore.blocksize < (zeros 2048).length := by decide +kernel
  have hsize : (zeros 2048).length < 2 ^ 32 := by decide +kernel
  have hfree : CollisionFree zeroStore.sha (zeroStore.hashedTexts zeroMemory (zeros 2048)) := by
    decide +kernel
  refine ⟨zeroStore.empty_fresh, hbig, hsize, hfree, ?_⟩
  obtain ⟨stored, after, hstored, hafter, hget⟩ := run_store_and_load zeroStore.empty_fresh.sound
    zeroMemory zeroMemory hbig hsize (zeroStore.empty_fresh.view_eq_none _)
    (blockId_ne_idOf hfree (by decide +kernel))
  rw [roundTrips_of_loaded hstored hafter hget, joined_leftBlock_iff hbig hfree]
  decide +kernel

end Blockstore

end AnarchNet
