import AnarchNet.Blockstore.Interference
import AnarchNet.FFStore.Confinement
import AnarchNet.FFStore.Multimap

/-!
# Which ids stay in the store

Ids of files and blocks are used as paths, and so are the block ids that a header lists.
`paths_confined_iff` puts together which keys and ids keep every path that a call opens, creates or
removes strictly inside the directories of its store.
-/

namespace AnarchNet

open FileSystem EStateM

namespace Blockstore

variable {store : Blockstore}

/-- After resolving dots, the path is strictly inside one of the store's directories. -/
def Inside (store : Blockstore) (path : FilePath) : Prop :=
  StrictlyInside store.uniqueDir path ∨ StrictlyInside store.pubDir path

/-- The path that the source makes of an id. -/
def fileAt (store : Blockstore) (id : Bytes) : FilePath :=
  store.uniqueDir ++ components (shardText id)

/-- The public path of a file. -/
def pubAt (store : Blockstore) (fid : Bytes) : FilePath := store.pubDir ++ components fid

/-- The size that `load_file` reads from a header, from memory where the header is too short. -/
def headerSize (memory : Memory) (header : Option Bytes) : Nat :=
  uintValue (((header.getD []).take 4 ++ memory.integer.drop (header.getD []).length).take 4)

/-- The block ids that are opened while the stream writes the public file: those up to the first one
with a zero byte, which is not opened itself, the first one that leads nowhere, or the first one
whose end is never read. -/
def idsOpened (store : Blockstore) (direct : Nat) (tree : FileTree) (out : FilePath) :
    List Bytes → OutStream → Bool → List Bytes
  | [], _, _ => []
  | bid :: rest, stream, failed =>
      if (0 : UInt8) ∈ bid then []
      else bid :: match tree.resolve (store.fileAt bid) with
        | none => []
        | some file =>
            match blockBytes tree out file stream failed with
            | none => []
            | some bytes =>
                idsOpened store direct tree out rest (stream.insert direct bytes) (bytes = [])

/-- The path of a file is inside; where it leads to something, so is its public path; and where that
can be opened and the header is one of a large file, so are the block ids that are opened. -/
def FileConfined (store : Blockstore) (memory : Memory) (tree : FileTree) (fid : Bytes) : Prop :=
  Inside store (store.fileAt fid) ∧
    ∀ file, tree.resolve (store.fileAt fid) = some file → Inside store (store.pubAt fid) ∧
      ∀ after out header, tree.opened (store.pubAt fid) = some (after, out) →
        after.content file = some header →
        store.blocksize - 4 < headerSize memory (some header) →
        ∀ bid ∈ store.idsOpened memory.direct after out (wholePieces hashSize (header.drop 4))
            .opened false,
          Inside store (store.fileAt bid)

section Calls

variable {world : World} {memory : Memory}

/-- A whole piece of a text is as long as it says. -/
theorem length_of_mem_wholePieces {size : Nat} {text piece : Bytes}
    (h : piece ∈ wholePieces size text) : piece.length = size := by
  obtain ⟨index, hindex, rfl⟩ := List.mem_map.1 h
  have hlt := List.mem_range.1 hindex
  have hmul : (index + 1) * size ≤ text.length :=
    (Nat.mul_le_mul_right size hlt).trans (Nat.div_mul_le_self _ _)
  rw [Nat.succ_mul] at hmul
  rw [List.length_take, List.length_drop]
  omega

/-- Writing the public file does not change what the stream reads from a block. -/
theorem blockBytes_write (tree : FileTree) (out file : FilePath) (text : Bytes) (stream : OutStream)
    (failed : Bool) :
    blockBytes (tree.write out text) out file stream failed =
      blockBytes tree out file stream failed := by
  by_cases hout : file = out
  · simp [blockBytes, hout]
  · rw [blockBytes_of_ne hout, blockBytes_of_ne hout, FileTree.content, FileTree.get_write,
      if_neg hout, FileTree.content]

/-- Nor does it change which ids are opened. -/
theorem idsOpened_write (store : Blockstore) (direct : Nat) (tree : FileTree) (out : FilePath)
    (text : Bytes) (ids : List Bytes) (stream : OutStream) (failed : Bool) :
    store.idsOpened direct (tree.write out text) out ids stream failed =
      store.idsOpened direct tree out ids stream failed := by
  induction ids generalizing stream failed with
  | nil => rfl
  | cons bid ids ih => simp only [idsOpened, FileTree.resolve_write, blockBytes_write, ih]

/-- Copying blocks opens these ids. -/
theorem log_copyBlocks (store : Blockstore) (direct : Nat) (world : World) (out : FilePath)
    {ids : List Bytes} (hids : ∀ bid ∈ ids, 4 ≤ bid.length) (stream : OutStream) (failed : Bool) :
    ((store.copyBlocks direct out ids stream failed).run world).state.log =
      world.log ++
        (store.idsOpened direct world.tree out ids stream failed).map store.fileAt := by
  induction ids generalizing world stream failed with
  | nil => simp [copyBlocks, idsOpened]
  | cons bid ids ih =>
      have hrest : ∀ other ∈ ids, 4 ≤ other.length := fun other hother => hids other (by simp [hother])
      simp only [copyBlocks, run_bind, run_pathText_of_le (hids bid (by simp)), run_ite, idsOpened]
      by_cases hzero : (0 : UInt8) ∈ bid
      · simp [hzero]
      · simp only [hzero, if_false, run_openIn]
        rw [show store.uniqueDir ++ components (shardText bid) = store.fileAt bid from rfl]
        cases hresolve : world.tree.resolve (store.fileAt bid) with
        | none => simp
        | some file =>
            simp only [run_bind, run_readBlock]
            cases hbytes : blockBytes world.tree out file stream failed with
            | none => simp
            | some bytes =>
                by_cases hnil : bytes = []
                · subst hnil
                  simp only [if_true]
                  rw [ih _ hrest]
                  simp
                · -- writing to the public file does not change which ids are opened next
                  have hwrite : ∀ bytes, ((writeAt out stream.length bytes : Storage Unit).run
                      { world with log := world.log ++ [store.fileAt bid] }) =
                    .ok () { tree := world.tree.write out (overlay
                                ((world.tree.content out).getD []) stream.length bytes),
                             log := world.log ++ [store.fileAt bid] } := fun _ => rfl
                  simp only [if_neg hnil, run_bind, hwrite]
                  rw [ih _ hrest, idsOpened_write]
                  simp [hnil]

/-- What publishing a file opens. -/
theorem log_publish (path out : FilePath) (header : Option Bytes) :
    ((store.publish memory path out header).run world).state.log =
      world.log ++ (match header with
        | none => []
        | some text =>
            if headerSize memory (some text) ≤ store.blocksize - 4 then []
            else (store.idsOpened memory.direct world.tree out
              (wholePieces hashSize (text.drop 4)) .opened false).map store.fileAt) := by
  cases header with
  | none =>
      simp only [publish, run_ite]
      split
      · simp [writeAt]
      · simp
  | some text =>
      have hids : ∀ bid ∈ wholePieces hashSize (text.drop 4), 4 ≤ bid.length := fun bid hbid => by
        rw [length_of_mem_wholePieces hbid]
        decide
      simp only [publish, run_ite]
      split
      · rename_i hsmall
        rw [if_pos (show headerSize memory (some text) ≤ store.blocksize - 4 from hsmall)]
        simp [writeAt]
      · rename_i hbig
        rw [if_neg (show ¬ headerSize memory (some text) ≤ store.blocksize - 4 from hbig)]
        have hcopy := log_copyBlocks store memory.direct world out hids .opened false
        simp only [Option.isNone_some, Bool.false_eq_true, if_false, run_bind, Option.getD_some]
        cases hrun : (store.copyBlocks memory.direct out (wholePieces hashSize (text.drop 4))
          .opened false).run world with
        | error fault after =>
            rw [hrun] at hcopy
            exact hcopy
        | ok opened after =>
            rw [hrun] at hcopy
            simp only [run_ite]
            split <;> exact hcopy

/-- A handler that leaves the world alone notes nothing. -/
theorem log_tryCatch {α : Type} {body : Storage α} {handler : Exception → Storage α}
    (h : ∀ fault world, ((handler fault).run world).state = world) :
    ((tryCatch body handler).run world).state.log = (body.run world).state.log := by
  rw [run_tryCatch_eq]
  cases body.run world with
  | ok value after => rfl
  | error fault after => exact congrArg World.log (h fault after)

/-- Loading a file stays inside exactly if the file is confined. -/
theorem confined_loadFile_iff {fid : Bytes} (hfid : 4 ≤ fid.length) (hlog : world.log = []) :
    (∀ path ∈ ((store.loadFile memory fid).run world).state.log, Inside store path) ↔
      FileConfined store memory world.tree fid := by
  rw [loadFile, log_tryCatch fun fault after => by cases fault <;> rfl]
  simp only [run_bind, run_pathText_of_le hfid, run_openIn, hlog, List.nil_append, FileConfined]
  rw [show store.uniqueDir ++ components (shardText fid) = store.fileAt fid from rfl,
    show store.pubDir ++ components fid = store.pubAt fid from rfl]
  cases hresolve : world.tree.resolve (store.fileAt fid) with
  | none => simp
  | some file =>
      simp only [run_bind, run_openOut_eq, Option.some.injEq, forall_eq']
      cases hopened : world.tree.opened (store.pubAt fid) with
      | none => simp
      | some opened =>
          obtain ⟨after, out⟩ := opened
          simp only [run_bind, run_readAll, log_publish, Option.some.injEq, Prod.mk.injEq]
          cases hheader : after.content file with
          | none =>
              simp only [List.append_nil, List.cons_append, List.nil_append, List.mem_cons,
                List.not_mem_nil, or_false, forall_eq_or_imp, forall_eq]
              refine and_congr_right fun _ => (and_iff_left ?_).symm
              rintro _ _ _ ⟨rfl, rfl⟩ hsome
              simp [hheader] at hsome
          | some header =>
              simp only [List.cons_append, List.nil_append, List.mem_cons, forall_eq_or_imp]
              refine and_congr_right fun _ => and_congr_right fun _ => ?_
              constructor
              · rintro hpaths _ _ other ⟨rfl, rfl⟩ hother hbig bid hbid
                rw [hheader, Option.some.injEq] at hother
                subst hother
                refine hpaths _ ?_
                rw [if_neg (not_le.2 hbig)]
                exact List.mem_map_of_mem hbid
              · intro hids path hpath
                split at hpath
                · simp at hpath
                · rename_i hbig
                  obtain ⟨bid, hbid, rfl⟩ := List.mem_map.1 hpath
                  exact hids after out header ⟨rfl, rfl⟩ hheader (not_le.1 hbig) bid hbid

/-- Removing the file of an evicted entry notes its path, if there is one. -/
theorem logged_destroy {P : FilePath → Prop} {file : PublicFile}
    (h : ∀ path, file.path = some path → P path) : Preserves (Logged P) (destroy file) := by
  rw [destroy]
  split
  · exact Preserves.pure _
  · rename_i path hpath
    exact Preserves.bind (logged_remove (h path hpath)) fun _ => Preserves.pure _

/-- The files of the cache are published inside. -/
def CacheInside (store : Blockstore) (cache : FileCache) : Prop :=
  ∀ entry ∈ cache, ∀ path, entry.2.path = some path → Inside store path

/-- Getting a file stays inside exactly if it is cached or confined. -/
theorem confined_getFile_iff {fid : Bytes} {cache : FileCache} (hfid : 4 ≤ fid.length)
    (hlog : world.log = []) (hcache : CacheInside store cache) :
    (∀ path ∈ ((store.getFile memory cache fid).run world).state.log, Inside store path) ↔
      (cache.lookup fid = none → FileConfined store memory world.tree fid) := by
  have hgood : ∀ answer : PublicFile × FileCache, Preserves (Logged (Inside store))
      (if answer.1.good then return (true, answer.1.path, answer.2)
        else return (false, none, answer.2) : Storage (Bool × Option FilePath × FileCache)) :=
    fun answer => Preserves.ite (fun _ => Preserves.pure _) fun _ => Preserves.pure _
  cases hlookup : cache.lookup fid with
  | some file =>
      refine iff_of_true (fun path hpath => ?_) (by simp)
      rcases mem_log_of_bind hpath hgood with hcached | hinside
      · simp [cached, hlookup, hlog] at hcached
      · exact hinside
  | none =>
      -- the file is loaded and then inserted, and what is destroyed there is inside
      have hmiss : ∃ insert : PublicFile → Storage (PublicFile × FileCache),
          (∀ file, Preserves (Logged (Inside store)) (insert file)) ∧
            store.cached memory cache fid = store.loadFile memory fid >>= insert := by
        rw [cached, hlookup]
        refine ⟨_, fun file => ?_, rfl⟩
        cases cache with
        | nil => exact Preserves.pure _
        | cons oldest rest =>
            exact Preserves.ite (fun _ => Preserves.bind
              (logged_destroy (hcache oldest (by simp))) fun _ => Preserves.pure _)
              fun _ => Preserves.pure _
      obtain ⟨insert, hinsert, hcached⟩ := hmiss
      rw [← confined_loadFile_iff hfid hlog]
      constructor
      · intro hall _ path hpath
        refine hall path (mem_log_bind ?_ hgood)
        rw [hcached]
        exact mem_log_bind hpath hinsert
      · intro hload path hpath
        rcases mem_log_of_bind hpath hgood with hserved | hinside
        · rw [hcached] at hserved
          rcases mem_log_of_bind hserved hinsert with hloaded | hinside
          · exact hload rfl path hloaded
          · exact hinside
        · exact hinside

/-- The path text of an id. -/
theorem returns_pathText_of_le {id : Bytes} (hid : 4 ≤ id.length) :
    Returns (· = shardText id) (pathText id) := by
  intro world text last hrun
  rw [run_pathText_of_le hid, Result.ok.injEq] at hrun
  exact hrun.1.symm

/-- Removing a file stays inside exactly if the path of its id is inside. -/
theorem confined_removeFile_iff {id : Bytes} (hid : 4 ≤ id.length) (hlog : world.log = []) :
    (∀ path ∈ ((store.removeFile id).run world).state.log, Inside store path) ↔
      Inside store (store.fileAt id) := by
  refine forall_mem_log_iff ?_ ?_ hlog
  · refine Preserves.bind_of_returns (FFStore.preserves_pathText id) (returns_pathText_of_le hid) ?_
    rintro text rfl
    exact logged_remove rfl
  · rw [removeFile, run_bind, run_pathText_of_le hid]
    exact mem_log_remove world

/-- Getting a block stays inside exactly if the path of its id is inside. -/
theorem confined_getBlock_iff {id : Bytes} (hid : 4 ≤ id.length) (hlog : world.log = []) :
    (∀ path ∈ ((store.getBlock id).run world).state.log, Inside store path) ↔
      Inside store (store.fileAt id) := by
  -- the file is opened and then read, which notes nothing more
  have hopens : ∃ read : Option FilePath → Storage Bytes,
      (∀ (P : FilePath → Prop) file, Preserves (Logged P) (read file)) ∧
        store.loadBlock id = (pathText id >>= fun text =>
          openIn (store.uniqueDir ++ components text) >>= read) := by
    refine ⟨_, fun P file => ?_, rfl⟩
    cases file with
    | none => exact Preserves.throw _
    | some file =>
        refine Preserves.bind logged_readAll fun content => ?_
        cases content with
        | none => exact Preserves.throw _
        | some content => exact Preserves.pure content
  obtain ⟨read, hread, hload⟩ := hopens
  rw [getBlock, log_tryCatch fun _ _ => rfl, hload]
  refine forall_mem_log_iff ?_ ?_ hlog
  · refine Preserves.bind ?_ fun content => Preserves.pure _
    refine Preserves.bind_of_returns (FFStore.preserves_pathText id) (returns_pathText_of_le hid) ?_
    rintro text rfl
    exact Preserves.bind (logged_openIn rfl) fun file => hread _ file
  · refine mem_log_bind (P := fun _ => True) ?_ fun content => Preserves.pure _
    rw [run_bind, run_pathText_of_le hid]
    exact mem_log_bind (P := fun _ => True) (by simp [fileAt]) fun file => hread _ file

/-- The public path of a file that was loaded is that of its id, and its header was there. -/
theorem path_of_loadFile {fid : Bytes} {file : PublicFile} {last : World}
    (hfid : 4 ≤ fid.length) (hrun : (store.loadFile memory fid).run world = .ok file last)
    {path : FilePath} (hpath : file.path = some path) :
    path = store.pubAt fid ∧ ∃ header, world.tree.resolve (store.fileAt fid) = some header := by
  rw [loadFile, run_tryCatch_eq] at hrun
  simp only [run_bind, run_pathText_of_le hfid, run_openIn] at hrun
  rw [show store.uniqueDir ++ components (shardText fid) = store.fileAt fid from rfl] at hrun
  cases hresolve : world.tree.resolve (store.fileAt fid) with
  | none => simp [hresolve] at hrun
  | some header =>
      refine ⟨?_, header, rfl⟩
      have hgood : Returns (fun answer : PublicFile =>
          ∀ path, answer.path = some path → path = store.pubAt fid)
          (return ⟨some (store.pubAt fid), true⟩ : Storage PublicFile) :=
        Returns.pure fun path h => (Option.some.inj h).symm
      have hthrow : Returns (fun answer : PublicFile =>
          ∀ path, answer.path = some path → path = store.pubAt fid)
          (throw .fileNotFound : Storage PublicFile) :=
        fun _ _ _ h => by simp at h
      have hpublish : ∀ out text, Returns (fun answer : PublicFile =>
          ∀ path, answer.path = some path → path = store.pubAt fid)
          (store.publish memory (store.pubAt fid) out text) := fun out text =>
        Returns.ite (Returns.seq fun _ => hgood) (Returns.ite hthrow (Returns.seq fun copied =>
          Returns.ite hgood (Returns.pure (by simp))))
      simp only [hresolve] at hrun
      split at hrun
      · rename_i answer after hbody
        rw [Result.ok.injEq] at hrun
        rw [← hrun.1] at hpath
        obtain ⟨out, middle, -, hopened⟩ := run_bind_eq_ok hbody
        cases out with
        | none => exact hthrow _ _ _ hopened path hpath
        | some out =>
            obtain ⟨text, middle, -, hpublished⟩ := run_bind_eq_ok hopened
            exact hpublish out text _ _ _ hpublished path hpath
      · rename_i fault after hbody
        cases fault <;> simp at hrun
        rw [← hrun.1] at hpath
        simp at hpath

/-- A file that is cached or confined leaves the files of the cache inside. -/
theorem cacheInside_getFile {fid : Bytes} {cache after : FileCache} {found : Bool}
    {published : Option FilePath} {last : World} (hfid : 4 ≤ fid.length)
    (hcache : CacheInside store cache)
    (hconfined : cache.lookup fid = none → FileConfined store memory world.tree fid)
    (hrun : (store.getFile memory cache fid).run world = .ok (found, published, after) last) :
    CacheInside store after := by
  obtain ⟨⟨file, kept⟩, middle, hcached, hanswer⟩ := run_bind_eq_ok hrun
  obtain rfl : kept = after := by
    rw [run_ite] at hanswer
    split at hanswer <;> simp at hanswer <;> exact hanswer.1.2.2
  cases hlookup : cache.lookup fid with
  | some old =>
      rw [cached, hlookup] at hcached
      simp only [run_pure, Result.ok.injEq, Prod.mk.injEq] at hcached
      obtain ⟨⟨rfl, rfl⟩, -⟩ := hcached
      intro entry hentry
      rcases List.mem_append.1 hentry with hold | hnew
      · exact hcache entry (List.mem_of_mem_filter hold)
      · rw [List.mem_singleton.1 hnew]
        obtain ⟨left, right, heq, -⟩ := List.lookup_eq_some_iff.1 hlookup
        exact hcache (fid, old) (by simp [heq])
  | none =>
      rw [cached, hlookup] at hcached
      obtain ⟨loaded, between, hload, hkept⟩ := run_bind_eq_ok hcached
      have hnew : ∀ path, loaded.path = some path → Inside store path := by
        intro path hpath
        obtain ⟨rfl, header, hheader⟩ := path_of_loadFile hfid hload hpath
        exact ((hconfined hlookup).2 header hheader).1
      have hmem : ∀ entry ∈ kept, entry ∈ cache ∨ entry = (fid, loaded) := by
        cases cache with
        | nil =>
            simp only [run_pure, Result.ok.injEq, Prod.mk.injEq] at hkept
            rw [← hkept.1.2]
            simp
        | cons oldest rest =>
            obtain ⟨name, old⟩ := oldest
            simp only [run_ite] at hkept
            split at hkept
            · obtain ⟨-, removed, -, hpure⟩ := run_bind_eq_ok hkept
              simp only [run_pure, Result.ok.injEq, Prod.mk.injEq] at hpure
              rw [← hpure.1.2]
              intro entry hentry
              rcases List.mem_append.1 hentry with hold | hlast
              · exact Or.inl (List.mem_cons_of_mem _ hold)
              · exact Or.inr (List.mem_singleton.1 hlast)
            · simp only [run_pure, Result.ok.injEq, Prod.mk.injEq] at hkept
              rw [← hkept.1.2]
              intro entry hentry
              rcases List.mem_append.1 hentry with hold | hlast
              · exact Or.inl hold
              · exact Or.inr (List.mem_singleton.1 hlast)
      intro entry hentry
      rcases hmem entry hentry with hold | rfl
      · exact hcache entry hold
      · exact hnew

end Calls

end Blockstore

/-- Which keys and ids keep the paths that the calls open, create and remove strictly inside the
directories of their store. A key must be confined, in all states of the store. Removing a file and
getting a block need the path of the id inside. Getting a file needs it to be cached or confined,
and then the files of the cache are inside again. -/
theorem paths_confined_iff (keys : FFStore) (platform : Platform) (files : Blockstore) :
    (∀ key, (∀ world, keys.Sound world.tree → world.log = [] → ∀ call : FFStore.KeyCall,
      ∀ path ∈ ((call.run keys platform key).run world).state.log, keys.Inside path) ↔
        keys.Confined key) ∧
    ∀ id, 4 ≤ id.length → ∀ world, world.log = [] →
      ((∀ path ∈ ((files.removeFile id).run world).state.log, files.Inside path) ↔
        files.Inside (files.fileAt id)) ∧
      ((∀ path ∈ ((files.getBlock id).run world).state.log, files.Inside path) ↔
        files.Inside (files.fileAt id)) ∧
      ∀ memory cache, files.CacheInside cache →
        ((∀ path ∈ ((files.getFile memory cache id).run world).state.log, files.Inside path) ↔
          (cache.lookup id = none → files.FileConfined memory world.tree id)) ∧
        ∀ found published after last,
          (cache.lookup id = none → files.FileConfined memory world.tree id) →
          (files.getFile memory cache id).run world = .ok (found, published, after) last →
            files.CacheInside after :=
  ⟨fun key => FFStore.key_confined_iff keys platform key, fun _ hid _ hlog =>
    ⟨Blockstore.confined_removeFile_iff hid hlog, Blockstore.confined_getBlock_iff hid hlog,
      fun _ _ hcache => ⟨Blockstore.confined_getFile_iff hid hlog hcache,
        fun _ _ _ _ hconfined hrun => Blockstore.cacheInside_getFile hid hcache hconfined hrun⟩⟩⟩

/-- The path of a hex id is inside. -/
theorem Blockstore.inside_fileAt (store : Blockstore) {id : Bytes} (h : HexId id) :
    store.Inside (store.fileAt id) := by
  rw [fileAt, h.components_shardText]
  exact Or.inl (strictly_inside_of_plain store.uniqueDir_valid.plain h.validPath_shard.plain
    (by simp [shard]))

/-- The calls on the key `k`, and removing the file of one zero byte, stay inside. -/
theorem paths_confined_sample :
    (∀ call : FFStore.KeyCall, ∀ path ∈ ((call.run FFStore.letterStore FFStore.plainPlatform
        [107]).run FFStore.letterStore.fresh).state.log, FFStore.letterStore.Inside path) ∧
      ∀ path ∈ ((Blockstore.zeroStore.removeFile
        (Blockstore.zeroStore.idOf (Blockstore.zeros 1))).run Blockstore.zeroStore.fresh).state.log,
        Blockstore.zeroStore.Inside path := by
  have h := paths_confined_iff FFStore.letterStore FFStore.plainPlatform Blockstore.zeroStore
  have hid := Blockstore.zeroStore.hexId_idOf (Blockstore.zeros 1)
  exact ⟨(h.1 [107]).2 (FFStore.confined_of_hexId (hexId_validateKey _ (by decide)))
      FFStore.letterStore.fresh FFStore.letterStore.initial_fresh.sound rfl,
    (h.2 _ (by rw [hid.length]; decide) _ rfl).1.2 (Blockstore.zeroStore.inside_fileAt hid)⟩

/-- The key `..//` with 121 more slashes and `raw`. -/
def rawKey : Bytes := [46, 46] ++ List.replicate 123 slash ++ [114, 97, 119]

/-- Removing this key removes the directory of the blocks. -/
theorem kvRemove_escapes :
    ∃ last, (FFStore.letterStore.kvRemove FFStore.plainPlatform rawKey).run
        FFStore.letterStore.fresh = .ok true last ∧
      (∃ path ∈ last.log, ¬ FFStore.letterStore.Inside path) ∧
      last.tree.get FFStore.letterStore.dataDir = none := by
  have hrun : ((both (FFStore.letterStore.kvRemove FFStore.plainPlatform rawKey)
      (check fun world => world.log.any (fun path => !decide (FFStore.letterStore.Inside path)) &&
        decide (world.tree.get FFStore.letterStore.dataDir = none))).run
          FFStore.letterStore.fresh).isTrue = true := by decide +kernel
  obtain ⟨last, hlast⟩ := Result.exists_of_isTrue hrun
  obtain ⟨middle, hremove, hcheck⟩ := run_both_eq_true hlast
  obtain ⟨htest, rfl⟩ := run_check_eq_true hcheck
  rw [Bool.and_eq_true, List.any_eq_true] at htest
  obtain ⟨⟨path, hpath, houtside⟩, hgone⟩ := htest
  exact ⟨last, hremove, ⟨path, hpath, by simpa using houtside⟩, by simpa using hgone⟩

end AnarchNet
