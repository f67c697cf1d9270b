import AnarchNet.Blockstore.Reloading
import AnarchNet.Blockstore.Removal

/-!
# The caches of the block store

`get_file` keeps the files that it loaded in a cache, `kv_get` the blocks, and no call takes an
entry out again that is out of date. A run of the store answers as the store without the caches does
as long as no entry is used after the files that it was made from have changed. The two runs go side
by side: their trees differ only below the public directory.
-/

namespace AnarchNet

open FileSystem EStateM

namespace KvBlockstore

/-- A call of the block store, with the memory that it finds where it reads some that it has not
written. -/
inductive Call where
  | storeFile (memory : Memory) (source : Option Bytes)
  | getFile (memory : Memory) (fid : Bytes)
  | removeFile (fid : Bytes)
  | kvPut (key value : Bytes)
  | kvGet (key : Bytes)
  | kvRemove (key : Bytes)
  | storeBlock (content : Bytes)

/-- What a caller sees: whether the call succeeded, and an id, the path and the bytes of a file, or
values. -/
inductive Answer where
  | stored (success : Bool) (id : Bytes)
  | file (success : Bool) (path : Option FilePath) (content : Option Bytes)
  | done (success : Bool)
  | values (success : Bool) (res : KvResMap)
  deriving DecidableEq

/-- The bytes that a caller finds at the path that `get_file` returned. -/
def published (path : Option FilePath) : Storage (Option Bytes) :=
  match path with
  | none => return none
  | some path => readAll path

section Programs

variable (store : KvBlockstore) (platform : Platform)

/-- `get_file` with `load_file` in place of the cache. -/
def getFileUncached (memory : Memory) (fid : Bytes) : Storage (Bool × Option FilePath) := do
  let file ← store.loadFile memory fid
  if file.good then return (true, file.path) else return (false, none)

/-- A call without the caches. -/
def direct : Call → Storage Answer
  | .storeFile memory source => do
      let (success, id) ← store.storeFile memory source
      return .stored success id
  | .getFile memory fid => do
      let (success, path) ← store.getFileUncached memory fid
      return .file success path (← published path)
  | .removeFile fid => return .done (← store.removeFile fid)
  | .kvPut key value => return .done (← store.kvPut key value)
  | .kvGet key => do
      let (success, res) ← store.kvGetUncached platform key
      return .values success res
  | .kvRemove key => return .done (← store.kvRemove platform key)
  | .storeBlock content => return .done (← store.storeBlock content)

/-- A call with the caches, and the caches afterwards. -/
def through (files : FileCache) (blocks : BlockCache) :
    Call → Storage (Answer × FileCache × BlockCache)
  | .getFile memory fid => do
      let (success, path, after) ← store.getFile memory files fid
      return (.file success path (← published path), after, blocks)
  | .kvGet key => do
      let (success, res, after) ← store.kvGet platform blocks key
      return (.values success res, files, after)
  | call => return (← store.direct platform call, files, blocks)

end Programs

/-- The file system, the two caches, and the tree in which each id was loaded last. -/
structure Caching where
  world : World
  files : FileCache
  blocks : BlockCache
  loadedFrom : Bytes → FileTree

/-- No call was made yet. -/
def Caching.start (world : World) : Caching := ⟨world, [], [], fun _ => world.tree⟩

/-- The trees in which the ids were loaded last, after a call. -/
def Caching.sources (state : Caching) (call : Call) (id : Bytes) : FileTree :=
  match call with
  | .getFile _ fid =>
      if id = fid ∧ state.files.lookup fid = none then state.world.tree else state.loadedFrom id
  | _ => state.loadedFrom id

section Runs

variable (store : KvBlockstore) (platform : Platform)

/-- A call of the store: the answer or the exception, and the state afterwards. The caches stay as
they are when the call throws. -/
def step (state : Caching) (call : Call) : Except Exception Answer × Caching :=
  match (store.through platform state.files state.blocks call).run state.world with
  | .ok (answer, files, blocks) last => (.ok answer, ⟨last, files, blocks, state.sources call⟩)
  | .error fault last => (.error fault, { state with world := last })

/-- The same call of the store without the caches. -/
def stepDirect (world : World) (call : Call) : Except Exception Answer × World :=
  match (store.direct platform call).run world with
  | .ok answer last => (.ok answer, last)
  | .error fault last => (.error fault, last)

/-- The state after some calls. -/
def after (state : Caching) (calls : List Call) : Caching :=
  calls.foldl (fun state call => (store.step platform state call).2) state

/-- What the calls of a run answer. -/
def answers : Caching → List Call → List (Except Exception Answer)
  | _, [] => []
  | state, call :: calls =>
      (store.step platform state call).1 :: answers (store.step platform state call).2 calls

/-- What they answer without the caches. -/
def answersDirect : World → List Call → List (Except Exception Answer)
  | _, [] => []
  | world, call :: calls =>
      (store.stepDirect platform world call).1 ::
        answersDirect (store.stepDirect platform world call).2 calls

/-- The ids of files are hexadecimal digits, 128 of them. -/
def Call.OnIds : Call → Prop
  | .getFile _ fid => HexId fid
  | .removeFile fid => HexId fid
  | _ => True

/-- The cached file of an id is not out of date: its header is there and complete, and the header
and the blocks that a load comes to are as they were when the file was loaded. -/
def FileFresh (state : Caching) (fid : Bytes) : Prop :=
  ∃ text, state.world.tree.seen (store.fileAt fid) = some (some text) ∧ store.Complete text ∧
    (state.loadedFrom fid).seen (store.fileAt fid) = some (some text) ∧
    ∀ bid ∈ store.blocksRead (state.loadedFrom fid) fid,
      (state.loadedFrom fid).seen (store.fileAt bid) = state.world.tree.seen (store.fileAt bid)

/-- No key and no listed block leads into the public directory, and no entry of a cache is used that
is out of date. -/
def Call.Clean (state : Caching) : Call → Prop
  | .getFile _ fid =>
      if state.files.lookup fid = none then
        ∀ bid ∈ store.blocksRead state.world.tree fid, Avoids store.pubDir (store.fileAt bid)
      else store.FileFresh state fid
  | .kvGet key => store.Outlying key ∧
      ∀ block, state.blocks.lookup (validateKey store.sha key) = some block →
        state.world.tree.seen (store.uniqueAt key) = some (some block)
  | .kvPut key _ => store.Outlying key
  | .kvRemove key => store.Outlying key
  | _ => True

/-- All calls of a run are clean in the state in which they are made. -/
def CleanRun : Caching → List Call → Prop
  | _, [] => True
  | state, call :: calls =>
      call.Clean store state ∧ CleanRun (store.step platform state call).2 calls

end Runs

variable {store : KvBlockstore} {platform : Platform} {state : Caching} {world : World}

/-! ## The two runs -/

/-- A file was loaded under an id in a tree, with these bytes if it is a good one. -/
def LoadedIn (store : KvBlockstore) (id : Bytes) (file : PublicFile) (bytes : Bytes)
    (tree : FileTree) : Prop :=
  Blockstore.Tidy store.toBlockstore tree ∧
    (∀ bid ∈ store.blocksRead tree id, Avoids store.pubDir (store.fileAt bid)) ∧
    ∃ memory log content last, (store.fetch memory id).run ⟨tree, log⟩ = .ok (file, content) last ∧
      (file.good = true → content = some bytes)

/-- A run with the caches and one without: the trees differ only below the public directory, and
every entry of the cache of files was loaded in the tree that is noted for its id. -/
structure Agrees (store : KvBlockstore) (state : Caching) (world : World) : Prop where
  outer : state.world.tree.outer store.pubDir = world.tree.outer store.pubDir
  tidy : Blockstore.Tidy store.toBlockstore state.world.tree
  tidyDirect : Blockstore.Tidy store.toBlockstore world.tree
  cached : ∃ requests written,
    Blockstore.Served.Valid store.toBlockstore requests ⟨state.world, state.files, written⟩ ∧
      ∀ id file, (id, file) ∈ state.files →
        store.LoadedIn id file (written id) (state.loadedFrom id)

/-- The trees of the two runs differ only below the public directory. -/
theorem Agrees.outside (h : Agrees store state world) :
    Outside store.pubDir (state.world.tree.inner store.pubDir) (world.tree.inner store.pubDir)
      state.world world :=
  ⟨h.outer, rfl, rfl, h.tidy.links, h.tidyDirect.links, h.tidy.dir⟩

/-- The runs still agree after calls that did the same outside and left alone what lies below. -/
theorem Agrees.of_outside (h : Agrees store state world) {last lastDirect : World}
    (houtside : Outside store.pubDir (state.world.tree.inner store.pubDir)
      (world.tree.inner store.pubDir) last lastDirect) (blocks : BlockCache) :
    Agrees store ⟨last, state.files, blocks, state.loadedFrom⟩ lastDirect := by
  have hdir : lastDirect.tree.get store.pubDir = some .dir := by
    rw [← houtside.get fun hbelow => hbelow.2 rfl, houtside.dir]
  have hget : ∀ rest, last.tree.get (store.pubDir ++ rest) =
      state.world.tree.get (store.pubDir ++ rest) := by
    intro rest
    by_cases hrest : rest = []
    · rw [hrest, List.append_nil, houtside.dir, h.tidy.dir]
    · exact FileTree.get_of_inner houtside.left ⟨List.prefix_append _ _, by simpa using hrest⟩
  obtain ⟨requests, written, hvalid, hloaded⟩ := h.cached
  have hnext := hvalid.elsewhere hget
  exact ⟨houtside.outer, h.tidy.of_inner houtside.linksOne houtside.dir houtside.left,
    h.tidyDirect.of_inner houtside.linksTwo hdir houtside.right,
    requests, written, ⟨hnext.dir, hnext.links, hnext.ids, hnext.keys, hnext.entries⟩, hloaded⟩

/-- One call of the two runs ends alike. -/
structure StepAgrees (store : KvBlockstore) (platform : Platform) (state : Caching) (world : World)
    (call : Call) : Prop where
  answer : (store.step platform state call).1 = (store.stepDirect platform world call).1
  agrees : Agrees store (store.step platform state call).2 (store.stepDirect platform world call).2

/-- A call that does the same outside and leaves alone what lies below. -/
theorem Agrees.step_of_alike (h : Agrees store state world) {call : Call}
    (hsources : state.sources call = state.loadedFrom)
    (halike : Result.Alike (Outside store.pubDir (state.world.tree.inner store.pubDir)
        (world.tree.inner store.pubDir))
      (fun result answer => result.1 = answer ∧ result.2.1 = state.files)
      ((store.through platform state.files state.blocks call).run state.world)
      ((store.direct platform call).run world)) :
    StepAgrees store platform state world call := by
  obtain ⟨one, hone⟩ : ∃ one, (store.through platform state.files state.blocks call).run
      state.world = one := ⟨_, rfl⟩
  obtain ⟨two, htwo⟩ : ∃ two, (store.direct platform call).run world = two := ⟨_, rfl⟩
  rw [hone, htwo] at halike
  cases halike with
  | @ok result answer last lastDirect hvalues hstates =>
      obtain ⟨found, files, blocks⟩ := result
      obtain ⟨rfl, rfl⟩ := hvalues
      have hstep : store.step platform state call =
          (.ok found, ⟨last, state.files, blocks, state.loadedFrom⟩) := by
        rw [step, hone, hsources]
      have hdirect : store.stepDirect platform world call = (.ok found, lastDirect) := by
        rw [stepDirect, htwo]
      exact ⟨by rw [hstep, hdirect], by rw [hstep, hdirect]; exact h.of_outside hstates blocks⟩
  | @error fault last lastDirect hstates =>
      have hstep : store.step platform state call =
          (.error fault, { state with world := last }) := by
        rw [step, hone]
      have hdirect : store.stepDirect platform world call = (.error fault, lastDirect) := by
        rw [stepDirect, htwo]
      exact ⟨by rw [hstep, hdirect],
        by rw [hstep, hdirect]; exact h.of_outside hstates state.blocks⟩

section Outside

variable {left right : List (FilePath × Node)}

/-- A call that uses no cache. -/
theorem twin_through {call : Call} {files : FileCache} {blocks : BlockCache}
    (hcall : store.through platform files blocks call =
      (do return (← store.direct platform call, files, blocks)))
    (h : Twin (Outside store.pubDir left right) Eq (store.direct platform call)
      (store.direct platform call)) :
    Twin (Outside store.pubDir left right)
      (fun result answer => result.1 = answer ∧ result.2.1 = files)
      (store.through platform files blocks call) (store.direct platform call) := by
  rw [hcall]
  exact Twin.map_left h fun answer other heq => ⟨heq, rfl⟩

/-- Getting a key whose block is not cached. -/
theorem twin_kvGet {blocks : BlockCache} {key : Bytes}
    (hmiss : blocks.lookup (validateKey store.sha key) = none) (h : Outlying store key) :
    Twin (Outside store.pubDir left right)
      (fun result other => result.1 = other.1 ∧ result.2.1 = other.2)
      (store.kvGet platform blocks key) (store.kvGetUncached platform key) := by
  have hby : Twin (Outside store.pubDir left right)
      (fun result other => result.1 = other.1 ∧ result.2.1 = other.2.1)
      (store.kvGet platform blocks key) (store.kvGetBy (fun bid => do
        let block ← store.loadBlock bid
        return (block, [])) platform [] key) := ?_
  · refine Twin.map_right (f := fun other => (other.1, other.2.1)) hby ?_
    intro result other hvalues
    exact hvalues
  refine Twin.tryCatch ?_ fun fault => ?_
  · refine Twin.bind (P := fun loaded other => loaded.1 = other.1) ?_ fun loaded other heq => ?_
    · rw [cachedBlock, hmiss]
      refine Twin.bind_eq (twin_loadBlock h) fun block => ?_
      -- where the block goes in the cache does not matter for the answer
      split
      · exact Twin.pure rfl
      · exact Twin.pure rfl
    · obtain ⟨block, after⟩ := loaded
      obtain ⟨same, none⟩ := other
      obtain rfl : block = same := heq
      exact Twin.pure ⟨rfl, rfl⟩
  · cases fault with
    | fileNotFound =>
        refine Twin.bind_eq (twin_readMid platform h) fun result => ?_
        obtain ⟨found, res⟩ := result
        exact Twin.pure ⟨rfl, rfl⟩
    | _ => exact Twin.throw _

end Outside

/-- A cached block is answered. -/
theorem run_through_kvGet_hit {files : FileCache} {blocks : BlockCache} {key block : Bytes}
    (hhit : blocks.lookup (validateKey store.sha key) = some block) (world : World) :
    ∃ after, (store.through platform files blocks (.kvGet key)).run world =
      .ok (.values true [(toHex (store.sha.hash block), block)], files, after) world := by
  simp only [through, kvGet, kvGetBy, cachedBlock, hhit, run_bind, run_tryCatch_eq, run_pure]
  exact ⟨_, rfl⟩

/-- A block that is there is read without the cache. -/
theorem run_direct_kvGet (platform : Platform) {key block : Bytes}
    (hseen : world.tree.seen (store.uniqueAt key) = some (some block)) :
    ∃ last, (store.direct platform (.kvGet key)).run world =
      .ok (.values true [(toHex (store.sha.hash block), block)]) last ∧ last.tree = world.tree := by
  obtain ⟨file, hfile, hcontent⟩ := Option.map_eq_some_iff.mp hseen
  have hpath : store.uniqueDir ++ components (shardText (validateKey store.sha key)) =
      store.uniqueAt key := rfl
  have hload : (store.loadBlock (validateKey store.sha key)).run world =
      .ok block { world with log := world.log ++ [store.uniqueAt key] } := by
    simp only [Blockstore.loadBlock, run_bind, run_pathText_validateKey, hpath, run_openIn, hfile,
      run_readAll, hcontent, run_pure]
  refine ⟨{ world with log := world.log ++ [store.uniqueAt key] }, ?_, rfl⟩
  simp only [direct, kvGetUncached, kvGetBy, run_bind, run_tryCatch_eq, hload, run_pure]

/-- Getting a key ends alike if the cached block is the one that is there. -/
theorem Agrees.alike_kvGet (h : Agrees store state world) {key : Bytes}
    (hkey : Outlying store key)
    (hfresh : ∀ block, state.blocks.lookup (validateKey store.sha key) = some block →
      state.world.tree.seen (store.uniqueAt key) = some (some block)) :
    Result.Alike (Outside store.pubDir (state.world.tree.inner store.pubDir)
        (world.tree.inner store.pubDir))
      (fun result answer => result.1 = answer ∧ result.2.1 = state.files)
      ((store.through platform state.files state.blocks (.kvGet key)).run state.world)
      ((store.direct platform (.kvGet key)).run world) := by
  cases hlookup : state.blocks.lookup (validateKey store.sha key) with
  | some block =>
      have hseen : world.tree.seen (store.uniqueAt key) = some (some block) := by
        rw [← FileTree.seen_of_outer h.outer h.tidy.links h.tidyDirect.links hkey.unique]
        exact hfresh block hlookup
      obtain ⟨after, hthrough⟩ := run_through_kvGet_hit hlookup state.world
      obtain ⟨last, hdirect, htree⟩ := run_direct_kvGet platform hseen
      rw [hthrough, hdirect]
      refine .ok ⟨rfl, rfl⟩ ?_
      rw [Outside, htree]
      exact h.outside
  | none =>
      refine Twin.bind (twin_kvGet hlookup hkey) (fun result other hvalues => ?_) _ _ h.outside
      obtain ⟨found, res, after⟩ := result
      obtain ⟨same, values⟩ := other
      obtain ⟨rfl, rfl⟩ : found = same ∧ res = values := hvalues
      exact Twin.pure ⟨rfl, rfl⟩

/-! ## Getting a file -/

/-- What is answered for a file that was loaded or cached. -/
def fileAnswer (file : PublicFile) (content : Option Bytes) : Answer :=
  if file.good then .file true file.path content else .file false none none

/-- A file as `load_file` returns it. -/
def AsLoaded (store : KvBlockstore) (fid : Bytes) (file : PublicFile) : Prop :=
  file = ⟨some (store.pubFile fid), true⟩ ∨ file = ⟨none, false⟩

/-- Without the cache, what was loaded is answered. -/
theorem run_direct_getFile {memory : Memory} {fid : Bytes} {file : PublicFile}
    {content : Option Bytes} {last : World} (hasLoaded : AsLoaded store fid file)
    (hrun : (store.fetch memory fid).run world = .ok (file, content) last) :
    (store.direct platform (.getFile memory fid)).run world =
      .ok (fileAnswer file content) last := by
  obtain ⟨hload, rfl⟩ := Blockstore.run_fetch_eq_ok.mp hrun
  rcases hasLoaded with rfl | rfl
  · simp only [direct, getFileUncached, run_bind, hload, fileAnswer, if_true, run_pure, published,
      run_readAll]
  · simp only [direct, getFileUncached, run_bind, hload, fileAnswer, Bool.false_eq_true, if_false,
      run_pure, published]

/-- A load that throws throws without the cache. -/
theorem run_direct_getFile_error {memory : Memory} {fid : Bytes} {fault : Exception} {last : World}
    (hrun : (store.fetch memory fid).run world = .error fault last) :
    (store.direct platform (.getFile memory fid)).run world = .error fault last := by
  have hload := Blockstore.run_fetch_eq_error.mp hrun
  simp only [direct, getFileUncached, run_bind, hload]

/-- With the cache, the file that it yields is answered. -/
theorem run_through_getFile {memory : Memory} {fid : Bytes} {file : PublicFile}
    {files after : FileCache} {blocks : BlockCache} {last : World}
    (hasLoaded : AsLoaded store fid file)
    (hrun : (store.cached memory files fid).run world = .ok (file, after) last) :
    (store.through platform files blocks (.getFile memory fid)).run world =
      .ok (fileAnswer file (last.tree.content (store.pubFile fid)), after, blocks) last := by
  have hget := store.run_getFile_eq memory files fid world
  rw [hrun] at hget
  rcases hasLoaded with rfl | rfl
  · simp only [through, run_bind, hget, if_true, published, run_readAll, run_pure, fileAnswer]
  · simp only [through, run_bind, hget, Bool.false_eq_true, if_false, published, run_pure,
      fileAnswer]

/-- What the cache throws is thrown. -/
theorem run_through_getFile_error {memory : Memory} {fid : Bytes} {files : FileCache}
    {blocks : BlockCache} {fault : Exception} {last : World}
    (hrun : (store.cached memory files fid).run world = .error fault last) :
    (store.through platform files blocks (.getFile memory fid)).run world = .error fault last := by
  have hget := store.run_getFile_eq memory files fid world
  rw [hrun] at hget
  simp only [through, run_bind, hget]

/-- Only of a good file the bytes are answered. -/
theorem fileAnswer_congr {file : PublicFile} {content other : Option Bytes}
    (h : file.good = true → content = other) : fileAnswer file content = fileAnswer file other := by
  unfold fileAnswer
  split
  · next hgood => rw [h hgood]
  · rfl

/-- A load in the two runs has the same source. -/
theorem Agrees.sameSource (h : Agrees store state world) {fid : Bytes} (hfid : HexId fid)
    (hapart : ∀ bid ∈ store.blocksRead state.world.tree fid,
      Avoids store.pubDir (store.fileAt bid)) :
    Blockstore.SameSource store.toBlockstore fid state.world.tree world.tree :=
  ⟨FileTree.seen_of_outer h.outer h.tidy.links h.tidyDirect.links (store.avoids_fileAt hfid),
    hapart, fun bid hbid =>
      FileTree.seen_of_outer h.outer h.tidy.links h.tidyDirect.links (hapart bid hbid)⟩

/-- An entry that is not out of date has the same source as a load in the run without the caches. -/
theorem Agrees.sameSource_fresh (h : Agrees store state world) {fid : Bytes} (hfid : HexId fid)
    (hapart : ∀ bid ∈ store.blocksRead (state.loadedFrom fid) fid,
      Avoids store.pubDir (store.fileAt bid)) (hfresh : store.FileFresh state fid) :
    Blockstore.SameSource store.toBlockstore fid (state.loadedFrom fid) world.tree := by
  have hsame : ∀ path, Avoids store.pubDir path →
      state.world.tree.seen path = world.tree.seen path := fun path hpath =>
    FileTree.seen_of_outer h.outer h.tidy.links h.tidyDirect.links hpath
  obtain ⟨text, hnow, -, hthen, hblocks⟩ := hfresh
  refine ⟨?_, hapart, fun bid hbid => ?_⟩
  · rw [hthen, ← hsame _ (store.avoids_fileAt hfid), hnow]
  · rw [hblocks bid hbid, hsame _ (hapart bid hbid)]

/-- The entries of the cache of files. -/
theorem entries_of_valid {requests : List Bytes} {served : Blockstore.Served}
    (h : Blockstore.Served.Valid store.toBlockstore requests served) (id : Bytes)
    (file : PublicFile) (hentry : (id, file) ∈ served.cache) : HexId id ∧ AsLoaded store id file :=
  ⟨h.hexId (List.mem_map_of_mem hentry), (h.entries id file hentry).imp_left And.left⟩

/-- The runs still agree after files were written and removed below the public directory. -/
theorem Agrees.of_refilled (h : Agrees store state world) {last lastDirect : World}
    (hone : Refilled store.pubDir state.world last) (htwo : Refilled store.pubDir world lastDirect)
    {files : FileCache} {blocks : BlockCache} {loadedFrom : Bytes → FileTree}
    (hcached : ∃ requests written,
      Blockstore.Served.Valid store.toBlockstore requests ⟨last, files, written⟩ ∧
        ∀ id file, (id, file) ∈ files →
          store.LoadedIn id file (written id) (loadedFrom id)) :
    Agrees store ⟨last, files, blocks, loadedFrom⟩ lastDirect :=
  ⟨by rw [hone.outer, htwo.outer, h.outer], h.tidy.of_refilled hone, h.tidyDirect.of_refilled htwo,
    hcached⟩

/-- Getting a cached file that is not out of date. -/
theorem Agrees.getFile_hit (h : Agrees store state world) (memory : Memory) {fid : Bytes}
    {file : PublicFile} (hfid : HexId fid) (hlookup : state.files.lookup fid = some file)
    (hfresh : store.FileFresh state fid) :
    StepAgrees store platform state world (.getFile memory fid) := by
  obtain ⟨requests, written, hvalid, hloaded⟩ := h.cached
  have hentry := Blockstore.Served.mem_of_lookup hlookup
  have hasLoaded := (entries_of_valid hvalid fid file hentry).2
  obtain ⟨htidy, hapart, earlier, log, content, loaded, hfetch, hbytes⟩ := hloaded fid file hentry
  have hsource := h.sameSource_fresh hfid hapart hfresh
  -- the load that the entry comes from and a load now end alike
  obtain ⟨last, hlast⟩ : ∃ last, (store.fetch memory fid).run world = .ok (file, content) last := by
    obtain ⟨text, -, hcomplete, hthen, -⟩ := hfresh
    have halike : Result.Alike (fun _ _ => True) Eq
        ((store.fetch earlier fid).run ⟨state.loadedFrom fid, log⟩)
        ((store.fetch memory fid).run world) :=
      Blockstore.alike_fetch htidy h.tidyDirect hfid hsource (Or.inr ⟨text, hthen, hcomplete⟩)
    rw [hfetch] at halike
    generalize (store.fetch memory fid).run world = result at halike ⊢
    cases halike with
    | ok hvalues hstates => exact ⟨_, by rw [hvalues]⟩
  have hcached : (store.cached memory state.files fid).run state.world =
      .ok (file, state.files.filter (·.1 ≠ fid) ++ [(fid, file)]) state.world :=
    Blockstore.run_cached_hit hlookup state.world
  have hsources : state.sources (.getFile memory fid) = state.loadedFrom := by
    funext id
    exact if_neg fun hnone => by simp [hlookup] at hnone
  have hstep : store.step platform state (.getFile memory fid) =
      (.ok (fileAnswer file (state.world.tree.content (store.pubFile fid))),
        ⟨state.world, state.files.filter (·.1 ≠ fid) ++ [(fid, file)], state.blocks,
          state.loadedFrom⟩) := by
    rw [step, run_through_getFile hasLoaded hcached, hsources]
  have hdirect : store.stepDirect platform world (.getFile memory fid) =
      (.ok (fileAnswer file content), last) := by
    rw [stepDirect, run_direct_getFile hasLoaded hlast]
  refine ⟨?_, ?_⟩
  · rw [hstep, hdirect]
    refine congrArg Except.ok (fileAnswer_congr fun hgood => ?_)
    rw [hbytes hgood]
    rcases hvalid.entries fid file hentry with ⟨-, hfile⟩ | rfl
    · rw [FileTree.content, hfile]
    · cases hgood
  · have hrefilled := Blockstore.refilled_loadFile h.tidyDirect memory hfid
    rw [(Blockstore.run_fetch_eq_ok.mp hlast).1] at hrefilled
    have hnext := hvalid.get_hit hlookup memory
    rw [Blockstore.Served.get_hit hlookup] at hnext
    rw [hstep, hdirect]
    refine h.of_refilled (refl_of _ _) hrefilled ⟨_, written, hnext, fun id other hother => ?_⟩
    rcases List.mem_append.mp hother with hold | hnew
    · exact hloaded id other (List.mem_filter.mp hold).1
    · obtain ⟨rfl, rfl⟩ := Prod.mk.inj (List.mem_singleton.mp hnew)
      exact hloaded id other hentry

/-- Getting a file that is not cached, where the load throws. -/
theorem Agrees.getFile_throw (h : Agrees store state world) {memory : Memory} {fid : Bytes}
    (hfid : HexId fid) (hlookup : state.files.lookup fid = none) {fault : Exception}
    {last lastDirect : World}
    (hleft : (store.fetch memory fid).run state.world = .error fault last)
    (hright : (store.fetch memory fid).run world = .error fault lastDirect) :
    StepAgrees store platform state world (.getFile memory fid) := by
  obtain ⟨requests, written, hvalid, hloaded⟩ := h.cached
  have hload := Blockstore.run_fetch_eq_error.mp hleft
  have hcached : (store.cached memory state.files fid).run state.world = .error fault last :=
    Blockstore.run_cached_throw hlookup hload
  have hstep : store.step platform state (.getFile memory fid) =
      (.error fault, { state with world := last }) := by
    rw [step, run_through_getFile_error hcached]
  have hdirect : store.stepDirect platform world (.getFile memory fid) =
      (.error fault, lastDirect) := by
    rw [stepDirect, run_direct_getFile_error hright]
  refine ⟨by rw [hstep, hdirect], ?_⟩
  have hone := Blockstore.refilled_loadFile h.tidy memory hfid
  have htwo := Blockstore.refilled_loadFile h.tidyDirect memory hfid
  obtain ⟨hget, hnext⟩ := hvalid.get_throw hfid hlookup hload
  rw [hget] at hnext
  rw [hload] at hone
  rw [Blockstore.run_fetch_eq_error.mp hright] at htwo
  rw [hstep, hdirect]
  exact h.of_refilled hone htwo ⟨_, written, hnext, hloaded⟩

/-- Getting a file that is not cached, where the load returns. -/
theorem Agrees.getFile_load (h : Agrees store state world) {memory : Memory} {fid : Bytes}
    (hfid : HexId fid) (hlookup : state.files.lookup fid = none)
    (hapart : ∀ bid ∈ store.blocksRead state.world.tree fid,
      Avoids store.pubDir (store.fileAt bid))
    {file : PublicFile} {content : Option Bytes} {loaded lastDirect : World}
    (hleft : (store.fetch memory fid).run state.world = .ok (file, content) loaded)
    (hright : (store.fetch memory fid).run world = .ok (file, content) lastDirect) :
    StepAgrees store platform state world (.getFile memory fid) := by
  obtain ⟨requests, written, hvalid, hloaded⟩ := h.cached
  have hkey : fid ∉ state.files.map Prod.fst := lookup_eq_none_iff_not_mem_keys.mp hlookup
  obtain ⟨hload, hcontent⟩ := Blockstore.run_fetch_eq_ok.mp hleft
  have hloads := Blockstore.loads_loadFile memory hfid hvalid.dir (hvalid.links fid)
  rw [hload] at hloads
  have hasLoaded : AsLoaded store fid file := (hloads.answer file loaded rfl).imp_left And.left
  obtain ⟨⟨last, hlast⟩, -, hnext⟩ := hvalid.get_load hfid hlookup hload
  -- the bytes of the public file after the load, which the cache notes
  have hbytes : file.good = true →
      content = some (Blockstore.Served.loaded store.toBlockstore memory fid state.world) := by
    intro hgood
    rcases hloads.answer file loaded rfl with ⟨-, bytes, hfile⟩ | rfl
    · have hread : loaded.tree.content (store.pubFile fid) = some bytes := by
        rw [FileTree.content, hfile]
      rw [hcontent, Blockstore.Served.loaded, hload, Result.state_ok, hread, Option.getD_some]
    · cases hgood
  have hget : Blockstore.Served.get store.toBlockstore memory fid
      ⟨state.world, state.files, written⟩ =
      { world := last
        cache := store.spared state.files ++ [(fid, file)]
        written := fun id =>
          if id = fid ∧ state.files.lookup fid = none then
            Blockstore.Served.loaded store.toBlockstore memory fid state.world
          else written id } := by
    rw [Blockstore.Served.get, Blockstore.run_getFile_eq, hlast]
    simp only
    split <;> rfl
  rw [hget] at hnext
  have hstep : store.step platform state (.getFile memory fid) =
      (.ok (fileAnswer file (last.tree.content (store.pubFile fid))),
        ⟨last, store.spared state.files ++ [(fid, file)], state.blocks,
          state.sources (.getFile memory fid)⟩) := by
    rw [step, run_through_getFile hasLoaded hlast]
  have hdirect : store.stepDirect platform world (.getFile memory fid) =
      (.ok (fileAnswer file content), lastDirect) := by
    rw [stepDirect, run_direct_getFile hasLoaded hright]
  refine ⟨?_, ?_⟩
  · rw [hstep, hdirect]
    refine congrArg Except.ok (fileAnswer_congr fun hgood => ?_)
    rw [hbytes hgood]
    rcases hnext.entries fid file (List.mem_append_right _ List.mem_cons_self) with ⟨-, hfile⟩ | rfl
    · rw [FileTree.content, hfile]
      simp only [hlookup, and_self, if_true]
    · cases hgood
  · have hone := Blockstore.refilled_getFile h.tidy memory hfid (entries_of_valid hvalid)
    have htwo := Blockstore.refilled_loadFile h.tidyDirect memory hfid
    have hstate : ((store.getFile memory state.files fid).run state.world).state = last := by
      rw [Blockstore.run_getFile_eq, hlast]
      rfl
    rw [hstate] at hone
    rw [(Blockstore.run_fetch_eq_ok.mp hright).1] at htwo
    rw [hstep, hdirect]
    refine h.of_refilled hone htwo ⟨_, _, hnext, fun id other hother => ?_⟩
    rcases List.mem_append.mp hother with hold | hnew
    · have hcached := (store.spared_sublist state.files).subset hold
      have hne : id ≠ fid := fun heq => hkey (heq ▸ List.mem_map_of_mem hcached)
      simp only [Caching.sources, hne, false_and, if_false]
      exact hloaded id other hcached
    · obtain ⟨rfl, rfl⟩ := Prod.mk.inj (List.mem_singleton.mp hnew)
      simp only [Caching.sources, hlookup, and_self, if_true]
      exact ⟨h.tidy, hapart, memory, state.world.log, content, loaded, hleft, hbytes⟩

/-- Getting a file. -/
theorem Agrees.getFile (h : Agrees store state world) (memory : Memory) {fid : Bytes}
    (hfid : HexId fid) (hclean : (Call.getFile memory fid).Clean store state) :
    StepAgrees store platform state world (.getFile memory fid) := by
  cases hlookup : state.files.lookup fid with
  | some file =>
      rw [Call.Clean, if_neg (by simp [hlookup])] at hclean
      exact h.getFile_hit memory hfid hlookup hclean
  | none =>
      rw [Call.Clean, if_pos hlookup] at hclean
      have halike : Result.Alike (fun _ _ => True) Eq ((store.fetch memory fid).run state.world)
          ((store.fetch memory fid).run world) :=
        Blockstore.alike_fetch h.tidy h.tidyDirect hfid (h.sameSource hfid hclean) (Or.inl rfl)
      obtain ⟨left, hleft⟩ : ∃ left, (store.fetch memory fid).run state.world = left := ⟨_, rfl⟩
      obtain ⟨right, hright⟩ : ∃ right, (store.fetch memory fid).run world = right := ⟨_, rfl⟩
      rw [hleft, hright] at halike
      cases halike with
      | error hstates => exact h.getFile_throw hfid hlookup hleft hright
      | @ok loaded same middle lastDirect hvalues hstates =>
          subst hvalues
          obtain ⟨file, content⟩ := loaded
          exact h.getFile_load hfid hlookup hclean hleft hright

/-! ## Runs -/

/-- A clean call ends alike in the two runs, and they still agree. -/
theorem Agrees.step (h : Agrees store state world) (platform : Platform) {call : Call}
    (hids : call.OnIds) (hclean : call.Clean store state) :
    StepAgrees store platform state world call := by
  cases call with
  | getFile memory fid => exact h.getFile memory hids hclean
  | kvGet key => exact h.step_of_alike rfl (h.alike_kvGet hclean.1 hclean.2)
  | storeFile memory source =>
      refine h.step_of_alike rfl (twin_through rfl ?_ _ _ h.outside)
      refine Twin.bind_eq (store.twin_storeFile memory source) fun result => ?_
      obtain ⟨success, id⟩ := result
      exact Twin.pure rfl
  | removeFile fid =>
      refine h.step_of_alike rfl (twin_through rfl ?_ _ _ h.outside)
      exact Twin.bind_eq (store.twin_removeFile hids) fun _ => Twin.pure rfl
  | kvPut key value =>
      refine h.step_of_alike rfl (twin_through rfl ?_ _ _ h.outside)
      exact Twin.bind_eq (twin_kvPut hclean value) fun _ => Twin.pure rfl
  | kvRemove key =>
      refine h.step_of_alike rfl (twin_through rfl ?_ _ _ h.outside)
      exact Twin.bind_eq (twin_kvRemove platform hclean) fun _ => Twin.pure rfl
  | storeBlock content =>
      refine h.step_of_alike rfl (twin_through rfl ?_ _ _ h.outside)
      exact Twin.bind_eq (store.twin_storeBlock content) fun _ => Twin.pure rfl

/-- Runs that agree answer alike as long as the calls are clean. -/
theorem Agrees.answers_eq {calls : List Call} (h : Agrees store state world)
    (hids : ∀ call ∈ calls, call.OnIds) (hclean : CleanRun store platform state calls) :
    store.answers platform state calls = store.answersDirect platform world calls := by
  induction calls generalizing state world with
  | nil => rfl
  | cons call calls ih =>
      have hstep := h.step platform (hids call List.mem_cons_self) hclean.1
      rw [answers, answersDirect, hstep.answer,
        ih hstep.agrees (fun other hother => hids other (List.mem_cons_of_mem _ hother)) hclean.2]

/-- A run agrees with itself without the caches. -/
theorem Agrees.self (h : Agrees store state world) : Agrees store state state.world :=
  ⟨rfl, h.tidy, h.tidy, h.cached⟩

/-- A clean run still agrees with some run without the caches. -/
theorem Agrees.after {calls : List Call} (h : Agrees store state world)
    (hids : ∀ call ∈ calls, call.OnIds) (hclean : CleanRun store platform state calls) :
    ∃ last, Agrees store (store.after platform state calls) last := by
  induction calls generalizing state world with
  | nil => exact ⟨world, h⟩
  | cons call calls ih =>
      have hstep := h.step platform (hids call List.mem_cons_self) hclean.1
      exact ih hstep.agrees (fun other hother => hids other (List.mem_cons_of_mem _ hother))
        hclean.2

/-- Empty caches agree with no caches. -/
theorem agrees_start (h : Blockstore.Tidy store.toBlockstore world.tree) :
    Agrees store (.start world) world :=
  ⟨rfl, h, h, [], fun _ => [],
    ⟨h.dir, fun name => h.links _, by simp, by simp [Caching.start], by simp [Caching.start]⟩,
    by simp [Caching.start]⟩

/-- A front of a clean run is clean, and so is the call behind it. -/
theorem CleanRun.split {front back : List Call} {call : Call}
    (h : CleanRun store platform state (front ++ call :: back)) :
    CleanRun store platform state front ∧
      call.Clean store (store.after platform state front) := by
  induction front generalizing state with
  | nil => exact ⟨trivial, h.1⟩
  | cons first front ih =>
      obtain ⟨hfirst, hrest⟩ := h
      obtain ⟨hfront, hcall⟩ := ih hrest
      exact ⟨⟨hfirst, hfront⟩, hcall⟩

/-- A store whose directories were just made is tidy. -/
theorem tidy_fresh (store : KvBlockstore) :
    Blockstore.Tidy store.toBlockstore store.fresh.tree := by
  have hempty := store.empty_fresh
  obtain ⟨after, hrun, -, hget⟩ := run_ensureDirectory (ε := Exception)
    store.toBlockstore.empty_fresh.links store.midDir_valid.plain (fun above _ => by
      rw [Blockstore.get_fresh]
      split
      · exact Or.inr rfl
      · exact Or.inl rfl) store.midDir_valid
  have htree : store.fresh.tree = after.tree := by rw [fresh, hrun, Result.state_ok]
  refine ⟨fun path target => ?_, hempty.pub, fun name => ?_⟩
  · rw [htree, hget, Blockstore.get_fresh]
    split
    · simp
    · split <;> simp
  · rw [hempty.pubEmpty [name] (by simp)]
    simp

/-- The caches of the block store are transparent while no entry is used that is out of date: from
empty caches, a run answers what the same calls answer without the caches, and each call of it what
the call would answer without the caches in the state it is made in. -/
theorem caches_transparent (store : KvBlockstore) (platform : Platform) (world : World)
    (calls : List Call) (hworld : Blockstore.Tidy store.toBlockstore world.tree)
    (hids : ∀ call ∈ calls, call.OnIds)
    (hclean : CleanRun store platform (.start world) calls) :
    store.answers platform (.start world) calls = store.answersDirect platform world calls ∧
      ∀ front call back, calls = front ++ call :: back →
        (store.step platform (store.after platform (.start world) front) call).1 =
          (store.stepDirect platform
            (store.after platform (.start world) front).world call).1 := by
  refine ⟨(agrees_start hworld).answers_eq hids hclean, fun front call back hsplit => ?_⟩
  subst hsplit
  obtain ⟨hfront, hcall⟩ := hclean.split
  obtain ⟨last, hlast⟩ := (agrees_start hworld).after
    (fun other hother => hids other (List.mem_append_left _ hother)) hfront
  exact (hlast.self.step platform (hids call (by simp)) hcall).answer

/-- The id of the file `a`. -/
def letterId : Bytes := letterStore.idOf [97]

/-- The state after some calls of the letter store. -/
def letterState (calls : List Call) : Caching :=
  letterStore.after FFStore.plainPlatform (.start letterStore.fresh) calls

/-- The file `a` is stored and requested twice, and the block `b` is put and read twice. -/
def letterCalls : List Call :=
  [.storeFile Blockstore.pageMemory (some [97]), .getFile Blockstore.pageMemory letterId,
    .getFile Blockstore.pageMemory letterId, .kvPut [98] [98], .kvGet [98], .kvGet [98]]

/-- The file and the block are answered twice, the second time from the caches. -/
theorem caches_transparent_letters :
    ((letterState (letterCalls.take 2)).files.lookup letterId).isSome ∧
      ((letterState (letterCalls.take 5)).blocks.lookup
        (validateKey letterStore.sha [98])).isSome ∧
      letterStore.answers FFStore.plainPlatform (.start letterStore.fresh) letterCalls =
        letterStore.answersDirect FFStore.plainPlatform letterStore.fresh letterCalls := by
  have hletter : HexId letterId := letterStore.hexId_idOf [97]
  have hkey : Outlying letterStore [98] := outlying_of_hexId (hexId_validateKey _ (by decide))
  refine ⟨by decide +kernel, by decide +kernel, (caches_transparent letterStore
    FFStore.plainPlatform letterStore.fresh letterCalls letterStore.tidy_fresh ?_
    ⟨trivial, ?_, ?_, hkey, ?_, ?_, trivial⟩).1⟩
  · intro call hcall
    simp only [letterCalls, List.mem_cons, List.not_mem_nil, or_false] at hcall
    rcases hcall with rfl | rfl | rfl | rfl | rfl | rfl
    · trivial
    · exact hletter
    · exact hletter
    · trivial
    · trivial
    · trivial
  · change (Call.getFile Blockstore.pageMemory letterId).Clean letterStore
      (letterState (letterCalls.take 1))
    rw [Call.Clean, if_pos (by decide +kernel)]
    have hnone : letterStore.blocksRead (letterState (letterCalls.take 1)).world.tree
        letterId = [] := by decide +kernel
    rw [hnone]
    simp
  · change (Call.getFile Blockstore.pageMemory letterId).Clean letterStore
      (letterState (letterCalls.take 2))
    rw [Call.Clean, if_neg (by decide +kernel)]
    have hnone : letterStore.blocksRead ((letterState (letterCalls.take 2)).loadedFrom letterId)
        letterId = [] := by decide +kernel
    refine ⟨[1, 0, 0, 0, 97], by decide +kernel, by decide +kernel, by decide +kernel, ?_⟩
    rw [hnone]
    simp
  · change (Call.kvGet [98]).Clean letterStore (letterState (letterCalls.take 4))
    refine ⟨hkey, fun block hblock => ?_⟩
    rw [show (letterState (letterCalls.take 4)).blocks = [] by decide +kernel] at hblock
    cases hblock
  · change (Call.kvGet [98]).Clean letterStore (letterState (letterCalls.take 5))
    refine ⟨hkey, fun block hblock => ?_⟩
    rw [show (letterState (letterCalls.take 5)).blocks.lookup
      (validateKey letterStore.sha [98]) = some [98] by decide +kernel] at hblock
    obtain rfl := Option.some.inj hblock
    decide +kernel

/-- The file `a` is stored, requested, removed and requested again. -/
def removedCalls : List Call :=
  [.storeFile Blockstore.pageMemory (some [97]), .getFile Blockstore.pageMemory letterId,
    .removeFile letterId, .getFile Blockstore.pageMemory letterId]

/-- The block `b` is put under its own hash, read, removed and read again. -/
def removedKeyCalls : List Call := [.kvPut [98] [98], .kvGet [98], .kvRemove [98], .kvGet [98]]

/-- The removed file is still answered where `load_file` finds none, and so is the removed block,
both as a run and as the last call of a run. -/
theorem caches_not_transparent_removed :
    (∀ call ∈ removedCalls, call.OnIds) ∧
      letterStore.answers FFStore.plainPlatform (.start letterStore.fresh) removedCalls ≠
        letterStore.answersDirect FFStore.plainPlatform letterStore.fresh removedCalls ∧
      (letterStore.step FFStore.plainPlatform (letterState (removedCalls.take 3))
          (.getFile Blockstore.pageMemory letterId)).1 ≠
        (letterStore.stepDirect FFStore.plainPlatform (letterState (removedCalls.take 3)).world
          (.getFile Blockstore.pageMemory letterId)).1 ∧
      (∀ call ∈ removedKeyCalls, call.OnIds) ∧
      letterStore.answers FFStore.plainPlatform (.start letterStore.fresh) removedKeyCalls ≠
        letterStore.answersDirect FFStore.plainPlatform letterStore.fresh removedKeyCalls := by
  have hletter : HexId letterId := letterStore.hexId_idOf [97]
  refine ⟨fun call hcall => ?_, by decide +kernel, by decide +kernel, fun call hcall => ?_,
    by decide +kernel⟩
  · simp only [removedCalls, List.mem_cons, List.not_mem_nil, or_false] at hcall
    rcases hcall with rfl | rfl | rfl | rfl
    · trivial
    · exact hletter
    · exact hletter
    · exact hletter
  · simp only [removedKeyCalls, List.mem_cons, List.not_mem_nil, or_false] at hcall
    rcases hcall with rfl | rfl | rfl | rfl <;> trivial

end KvBlockstore

end AnarchNet
