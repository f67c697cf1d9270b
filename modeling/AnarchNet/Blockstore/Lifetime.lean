import AnarchNet.Blockstore.Published
import AnarchNet.Lib.Recency
import Mathlib.Data.Finset.Card

/-!
# How long a public file stays

A public file is removed when the entry of its id leaves the cache of public files. The keys of the
cache are the ids that were requested last, so a file stays as long as not too many other ids were
requested after it. Loads may fail in any way, and the directories of blocks may change between the
requests; nothing else touches the public directory.
-/

namespace AnarchNet

open FileSystem EStateM Recency

/-- Only one file was written. -/
structure OnlyFile (out : FilePath) (before after : World) : Prop where
  other : ∀ path, path ≠ out → after.tree.get path = before.tree.get path
  file : (∃ content, before.tree.get out = some (.file content)) →
    ∃ content, after.tree.get out = some (.file content)

namespace OnlyFile

variable {out : FilePath}

instance : Std.Refl (OnlyFile out) := ⟨fun _ => ⟨fun _ _ => rfl, id⟩⟩

instance : IsTrans World (OnlyFile out) :=
  ⟨fun _ _ _ h h' => ⟨fun path hpath => (h'.other path hpath).trans (h.other path hpath),
    fun hfile => h'.file (h.file hfile)⟩⟩

/-- A call that leaves the tree alone. -/
theorem of_tree_eq {before after : World} (h : after.tree = before.tree) :
    OnlyFile out before after :=
  ⟨fun _ _ => by rw [h], fun hfile => by rwa [h]⟩

end OnlyFile

/-- Writing to the file. -/
theorem onlyFile_writeAt (out : FilePath) (position : Nat) (bytes : Bytes) :
    Preserves (OnlyFile out) (writeAt out position bytes : Storage Unit) := by
  intro world
  refine ⟨fun path hpath => ?_, fun ⟨content, hfile⟩ => ?_⟩
  · exact (FileTree.get_write _ _ _).trans (if_neg hpath)
  · exact ⟨_, (FileTree.get_write _ _ _).trans (by rw [if_pos rfl, hfile]; rfl)⟩

namespace Blockstore

variable {store : Blockstore} {memory : Memory}

section Publishing

variable {R : World → World → Prop} [Std.Refl R] [IsTrans World R]

/-- Copying blocks preserves what reading and what writing the public file preserve. -/
theorem preserves_copyBlocks {out : FilePath}
    (hread : ∀ before after : World, after.tree = before.tree → R before after)
    (hwrite : ∀ position bytes, Preserves R (writeAt out position bytes : Storage Unit))
    (direct : Nat) (ids : List Bytes) (stream : OutStream) (failed : Bool) :
    Preserves R (store.copyBlocks direct out ids stream failed) := by
  induction ids generalizing stream failed with
  | nil => exact Preserves.pure true
  | cons bid ids ih =>
      refine Preserves.bind (FFStore.preserves_pathText bid) fun text => ?_
      refine Preserves.ite (fun _ => Preserves.throw _) fun _ => ?_
      refine Preserves.bind (fun world => hread _ _ rfl) fun file => ?_
      cases file with
      | none => exact Preserves.pure false
      | some file =>
          refine Preserves.bind (fun world => ?_) fun bytes => ?_
          · rw [run_readBlock]
            split <;> exact hread _ _ rfl
          exact Preserves.ite (fun _ => ih _ _) fun _ =>
            Preserves.bind (hwrite _ _) fun _ => ih _ _

/-- So does publishing. -/
theorem preserves_publish {out : FilePath}
    (hread : ∀ before after : World, after.tree = before.tree → R before after)
    (hwrite : ∀ position bytes, Preserves R (writeAt out position bytes : Storage Unit))
    (path : FilePath) (header : Option Bytes) :
    Preserves R (store.publish memory path out header) := by
  refine Preserves.ite (fun _ => ?_) fun _ => Preserves.ite (fun _ => Preserves.throw _) fun _ => ?_
  · exact Preserves.bind (hwrite _ _) fun _ => Preserves.pure _
  · exact Preserves.bind (preserves_copyBlocks hread hwrite _ _ _ _) fun all =>
      Preserves.ite (fun _ => Preserves.pure _) fun _ => Preserves.pure _

end Publishing

/-- A good file has the path that was asked for, a bad one none. -/
theorem returns_publish (store : Blockstore) (memory : Memory) (path out : FilePath)
    (header : Option Bytes) :
    Returns (fun answer : PublicFile => answer = ⟨some path, true⟩ ∨ answer = ⟨none, false⟩)
      (store.publish memory path out header) := by
  refine Returns.ite (Returns.seq fun _ => Returns.pure (Or.inl rfl)) (Returns.ite ?_ ?_)
  · exact fun _ _ _ h => by simp at h
  · exact Returns.seq fun all =>
      Returns.ite (Returns.pure (Or.inl rfl)) (Returns.pure (Or.inr rfl))

/-- What `load_file` does to a public directory without links: it writes the public file of the id
or nothing, and a good file is there. -/
structure Loads (store : Blockstore) (fid : Bytes) (world : World)
    (result : Result Exception World PublicFile) : Prop where
  other : ∀ path, path ≠ store.pubFile fid → result.state.tree.get path = world.tree.get path
  link : ∀ target, result.state.tree.get (store.pubFile fid) ≠ some (.link target)
  answer : ∀ file last, result = .ok file last →
    (file = ⟨some (store.pubFile fid), true⟩ ∧
      ∃ content, last.tree.get (store.pubFile fid) = some (.file content)) ∨ file = ⟨none, false⟩

/-- `load_file` for an id. -/
theorem loads_loadFile (memory : Memory) {fid : Bytes} {world : World} (hfid : HexId fid)
    (hdir : world.tree.get store.pubDir = some .dir)
    (hlink : ∀ target, world.tree.get (store.pubFile fid) ≠ some (.link target)) :
    Loads store fid world ((store.loadFile memory fid).run world) := by
  have hlength : 4 ≤ fid.length := by
    rw [hfid.length]
    decide
  have hpub : store.pubAt fid = store.pubFile fid := by
    rw [pubAt, hfid.components_self, pubFile]
  by_cases hclosed : world.tree.resolve (store.fileAt fid) = none ∨
      world.tree.opened (store.pubAt fid) = none
  · obtain ⟨last, hlast, htree⟩ := run_loadFile_closed memory hlength hclosed
    rw [hlast]
    refine ⟨fun path _ => by rw [Result.state_error, htree], fun target => ?_, by simp⟩
    rw [Result.state_error, htree]
    exact hlink target
  · rw [not_or] at hclosed
    obtain ⟨header, hheader⟩ := Option.ne_none_iff_exists'.mp hclosed.1
    obtain ⟨⟨opened, out⟩, hopened⟩ := Option.ne_none_iff_exists'.mp hclosed.2
    have hvalid : ValidPath (store.pubDir ++ [fid]) :=
      validPath_append.2 ⟨store.pubDir_valid, validPath_cons.2 ⟨hfid.validName, validPath_nil⟩⟩
    obtain rfl : out = store.pubFile fid :=
      FileTree.opened_of_plain hvalid.plain hdir hlink (hpub ▸ hopened)
    obtain ⟨started, hstarted, hrun⟩ := run_loadFile_opened memory hlength hheader hopened
    have honly : OnlyFile (store.pubFile fid) started ((store.publish memory (store.pubAt fid)
        (store.pubFile fid) (opened.content header)).run started).state :=
      preserves_publish (fun _ _ => .of_tree_eq) (onlyFile_writeAt (store.pubFile fid)) _ _ started
    have hget := (FileTree.opened_eq_some hopened).2
    have hother : ∀ path, path ≠ store.pubFile fid → started.tree.get path = world.tree.get path :=
      fun path hpath => by rw [hstarted, hget, if_neg hpath]
    obtain ⟨content, hfile⟩ := honly.file ⟨[], by rw [hstarted, hget, if_pos rfl]⟩
    have hanswer := returns_publish store memory (store.pubAt fid) (store.pubFile fid)
      (opened.content header) started
    rw [hpub] at hanswer hrun honly hfile
    generalize (store.publish memory (store.pubFile fid) (store.pubFile fid)
      (opened.content header)).run started = result at hrun honly hfile hanswer
    have hstate : ((store.loadFile memory fid).run world).state = result.state := by
      rw [hrun]
      cases result with
      | ok answer last => rfl
      | error fault last => cases fault <;> rfl
    refine ⟨fun path hpath => ?_, fun target => ?_, fun file last hok => ?_⟩
    · rw [hstate]
      exact (honly.other path hpath).trans (hother path hpath)
    · rw [hstate, hfile]
      simp
    · rw [hok] at hstate hrun
      obtain rfl : last = result.state := hstate
      cases result with
      | ok answer after =>
          obtain ⟨rfl, -⟩ := Result.ok.inj hrun
          exact (hanswer file after rfl).imp_left fun hgood => ⟨hgood, content, hfile⟩
      | error fault after =>
          cases fault with
          | filesystemError => exact Or.inr (Result.ok.inj hrun).1
          | fileNotFound | outOfRange | runtimeError | message | undefined => simp at hrun

/-- The file system, the cache of public files, and the bytes that the last load of each id left in
its public file. -/
structure Served where
  world : World
  cache : FileCache
  written : Bytes → Bytes

namespace Served

/-- What a load of an id would leave in its public file. -/
def loaded (store : Blockstore) (memory : Memory) (fid : Bytes) (world : World) : Bytes :=
  (((store.loadFile memory fid).run world).state.tree.content (store.pubFile fid)).getD []

/-- `get_file`; the cache stays as it is when the call throws. -/
def get (store : Blockstore) (memory : Memory) (fid : Bytes) (served : Served) : Served :=
  match (store.getFile memory served.cache fid).run served.world with
  | .ok (_, _, after) last =>
      { world := last
        cache := after
        written := fun id =>
          if id = fid ∧ served.cache.lookup fid = none then loaded store memory fid served.world
          else served.written id }
  | .error _ last => { served with world := last }

/-- The directory of public files has no links, its files are those of the good entries of the
cache, and the cache has room for the ids that were requested last with success. -/
structure Valid (store : Blockstore) (requests : List Bytes) (served : Served) : Prop where
  dir : served.world.tree.get store.pubDir = some .dir
  links : ∀ name target, served.world.tree.get (store.pubDir ++ [name]) ≠ some (.link target)
  ids : ∀ id ∈ requests, HexId id
  keys : served.cache.map Prod.fst = ((recent requests).take store.cacheSize).reverse
  entries : ∀ id file, (id, file) ∈ served.cache →
    (file = ⟨some (store.pubFile id), true⟩ ∧
      served.world.tree.get (store.pubFile id) = some (.file (served.written id))) ∨
    file = ⟨none, false⟩

end Served

/-- Removing the file of an entry of the cache. -/
theorem run_destroy {world : World} {id : Bytes} {file : PublicFile} (hid : HexId id)
    (h : (file = ⟨some (store.pubFile id), true⟩ ∧
        ∃ content, world.tree.get (store.pubFile id) = some (.file content)) ∨
      file = ⟨none, false⟩) :
    ∃ last, (destroy file).run world = .ok () last ∧
      (∀ path, path ≠ store.pubFile id → last.tree.get path = world.tree.get path) ∧
      ∀ target, last.tree.get (store.pubFile id) = some (.link target) →
        world.tree.get (store.pubFile id) = some (.link target) := by
  rcases h with ⟨rfl, content, hfile⟩ | rfl
  · have hvalid : ValidPath (store.pubDir ++ [id]) :=
      validPath_append.2 ⟨store.pubDir_valid, validPath_cons.2 ⟨hid.validName, validPath_nil⟩⟩
    obtain ⟨last, hlast, hget⟩ := run_remove (ε := Exception) hvalid.plain hfile
    refine ⟨last, ?_, fun path hpath => (hget path).trans (if_neg hpath), fun target hlink => ?_⟩
    · simp only [destroy, pubFile, run_bind, hlast]
      rfl
    · have hgone : last.tree.get (store.pubFile id) = none := (hget _).trans (if_pos rfl)
      simp [hgone] at hlink
  · exact ⟨world, rfl, fun _ _ => rfl, fun _ h => h⟩

/-- The public files of different ids are different. -/
theorem pubFile_injective {one other : Bytes} (h : store.pubFile one = store.pubFile other) :
    one = other := by
  simpa [pubFile] using h

/-- `get_file` in terms of its cache. -/
theorem run_getFile_eq (memory : Memory) (cache : FileCache) (fid : Bytes) (world : World) :
    (store.getFile memory cache fid).run world =
      match (store.cached memory cache fid).run world with
      | .ok (file, after) last =>
          .ok (if file.good then (true, file.path, after) else (false, none, after)) last
      | .error fault last => .error fault last := by
  rw [getFile, run_bind]
  rcases (store.cached memory cache fid).run world with ⟨⟨file, after⟩, last⟩ | ⟨fault, last⟩
  · simp only [run_ite]
    split <;> rfl
  · rfl

/-- A cached file is moved to the end. -/
theorem run_cached_hit {memory : Memory} {cache : FileCache} {fid : Bytes} {file : PublicFile}
    (h : cache.lookup fid = some file) (world : World) :
    (store.cached memory cache fid).run world =
      .ok (file, cache.filter (·.1 ≠ fid) ++ [(fid, file)]) world := by
  rw [cached, h]
  rfl

/-- The entries that stay when there is no more room for a new one. -/
def spared (store : Blockstore) (cache : FileCache) : FileCache :=
  if cache.length = store.cacheSize then cache.tail else cache

/-- A load that throws leaves the cache alone. -/
theorem run_cached_throw {memory : Memory} {cache : FileCache} {fid : Bytes} {world last : World}
    {fault : Exception} (h : cache.lookup fid = none)
    (hload : (store.loadFile memory fid).run world = .error fault last) :
    (store.cached memory cache fid).run world = .error fault last := by
  rw [cached, h]
  simp only [run_bind, hload]

/-- A file that was loaded is added at the end, and the file of an entry for which there is no room
any more is removed. -/
theorem run_cached_load {memory : Memory} {cache : FileCache} {fid : Bytes} {world loaded : World}
    {file : PublicFile} (h : cache.lookup fid = none)
    (hload : (store.loadFile memory fid).run world = .ok file loaded)
    (hnodup : (cache.map Prod.fst).Nodup)
    (hentries : ∀ id entry, (id, entry) ∈ cache → HexId id ∧
      ((entry = ⟨some (store.pubFile id), true⟩ ∧
        ∃ content, loaded.tree.get (store.pubFile id) = some (.file content)) ∨
      entry = ⟨none, false⟩)) :
    ∃ last, (store.cached memory cache fid).run world =
        .ok (file, store.spared cache ++ [(fid, file)]) last ∧
      (∀ path, (∀ id ∈ cache.map Prod.fst, id ∉ (store.spared cache).map Prod.fst →
          path ≠ store.pubFile id) → last.tree.get path = loaded.tree.get path) ∧
      ∀ name target, last.tree.get (store.pubDir ++ [name]) = some (.link target) →
        loaded.tree.get (store.pubDir ++ [name]) = some (.link target) := by
  rw [cached, h]
  simp only [run_bind, hload]
  cases cache with
  | nil =>
      have hspared : store.spared [] = [] := by
        unfold spared
        split <;> rfl
      exact ⟨loaded, by rw [hspared]; rfl, fun _ _ => rfl, fun _ _ hlink => hlink⟩
  | cons first rest =>
      obtain ⟨old, oldest⟩ := first
      by_cases hfull : ((old, oldest) :: rest).length = store.cacheSize
      · obtain ⟨hold, hentry⟩ := hentries old oldest List.mem_cons_self
        obtain ⟨last, hlast, hother, hlink⟩ := run_destroy hold hentry
        refine ⟨last, ?_, fun path hpath => hother path ?_, fun name target hname => ?_⟩
        · simp only [if_pos hfull, spared, run_bind, hlast, List.tail_cons]
          rfl
        · refine hpath old (by simp) ?_
          rw [spared, if_pos hfull, List.tail_cons]
          exact (List.nodup_cons.mp hnodup).1
        · by_cases heq : name = old
          · subst heq
            exact hlink target hname
          · rw [← hname]
            exact (hother _ fun hsame => heq (pubFile_injective hsame)).symm
      · refine ⟨loaded, ?_, fun _ _ => rfl, fun _ _ hlink => hlink⟩
        simp only [if_neg hfull, spared]
        rfl

/-- The entries that stay are entries. -/
theorem spared_sublist (store : Blockstore) (cache : FileCache) :
    (store.spared cache).Sublist cache := by
  unfold spared
  split
  · exact List.tail_sublist cache
  · exact List.Sublist.refl cache

/-- The keys after a new entry. -/
theorem keys_spared {cache : FileCache} {fid : Bytes} (file : PublicFile)
    (h : fid ∉ cache.map Prod.fst) :
    (store.spared cache ++ [(fid, file)]).map Prod.fst =
      touch store.cacheSize (cache.map Prod.fst) fid := by
  rw [touch, if_neg h, List.length_map, spared]
  split
  · rw [List.map_append, List.map_tail]
    rfl
  · rw [List.map_append]
    rfl

/-- The keys after an entry was used. -/
theorem keys_moved {cache : FileCache} {fid : Bytes} (file : PublicFile)
    (h : fid ∈ cache.map Prod.fst) :
    (cache.filter (·.1 ≠ fid) ++ [(fid, file)]).map Prod.fst =
      touch store.cacheSize (cache.map Prod.fst) fid := by
  rw [touch, if_pos h, List.map_append, List.filter_map]
  rfl

namespace Served

variable {served : Served} {requests : List Bytes} {fid : Bytes}

/-- Each id has at most one entry. -/
theorem Valid.nodup (h : Valid store requests served) : (served.cache.map Prod.fst).Nodup := by
  rw [h.keys, List.nodup_reverse]
  exact (nodup_recent requests).sublist (List.take_sublist _ _)

/-- The entry of an id is unique. -/
theorem Valid.entry_unique (h : Valid store requests served) {id : Bytes} {one other : PublicFile}
    (hone : (id, one) ∈ served.cache) (hother : (id, other) ∈ served.cache) : one = other :=
  congrArg Prod.snd (List.inj_on_of_nodup_map h.nodup hone hother rfl)

/-- The id of an entry was requested. -/
theorem Valid.hexId (h : Valid store requests served) {id : Bytes}
    (hid : id ∈ served.cache.map Prod.fst) : HexId id := by
  rw [h.keys, List.mem_reverse] at hid
  exact h.ids id (mem_recent.mp (List.mem_of_mem_take hid))

/-- A cached file is found again. -/
theorem get_hit {file : PublicFile} (hlookup : served.cache.lookup fid = some file)
    (memory : Memory) : served.get store memory fid =
      { served with cache := served.cache.filter (·.1 ≠ fid) ++ [(fid, file)] } := by
  have hwritten : (fun id => if id = fid ∧ served.cache.lookup fid = none then
      loaded store memory fid served.world else served.written id) = served.written := by
    funext id
    rw [if_neg (by simp [hlookup])]
  rw [get, run_getFile_eq, run_cached_hit hlookup]
  simp only [hwritten]
  split <;> rfl

/-- An entry that is found is there. -/
theorem mem_of_lookup {cache : FileCache} {id : Bytes} {file : PublicFile}
    (h : cache.lookup id = some file) : (id, file) ∈ cache := by
  obtain ⟨left, right, hsplit, -⟩ := List.lookup_eq_some_iff.mp h
  simp [hsplit]

/-- An entry that is there is found. -/
theorem Valid.lookup_of_mem (h : Valid store requests served) {id : Bytes} {file : PublicFile}
    (hentry : (id, file) ∈ served.cache) : served.cache.lookup id = some file := by
  cases hlookup : served.cache.lookup id with
  | none =>
      exact absurd (List.mem_map_of_mem hentry) (lookup_eq_none_iff_not_mem_keys.mp hlookup)
  | some found => rw [h.entry_unique hentry (mem_of_lookup hlookup)]

/-- Finding a file again keeps the cache valid. -/
theorem Valid.get_hit (h : Valid store requests served) {file : PublicFile}
    (hlookup : served.cache.lookup fid = some file) (memory : Memory) :
    Valid store (requests ++ [fid]) (served.get store memory fid) := by
  have hmem := mem_of_lookup hlookup
  have hkey : fid ∈ served.cache.map Prod.fst := List.mem_map_of_mem hmem
  rw [Served.get_hit hlookup]
  refine ⟨h.dir, h.links, ?_, ?_, ?_⟩
  · intro id hid
    rcases List.mem_append.mp hid with hid | hid
    · exact h.ids id hid
    · rw [List.mem_singleton.mp hid]
      exact h.hexId hkey
  · rw [keys_moved file hkey, h.keys, touch_recent store.cacheSize_pos]
  · intro id entry hentry
    rcases List.mem_append.mp hentry with hentry | hentry
    · exact h.entries id entry (List.mem_filter.mp hentry).1
    · obtain ⟨rfl, rfl⟩ := Prod.mk.inj (List.mem_singleton.mp hentry)
      exact h.entries id entry hmem

/-- A load keeps the cache valid if its id has no entry. -/
theorem Valid.of_loads (h : Valid store requests served)
    (hkey : fid ∉ served.cache.map Prod.fst) {result : Result Exception World PublicFile}
    (hloads : Loads store fid served.world result) :
    Valid store requests { served with world := result.state } := by
  refine ⟨?_, fun name target => ?_, h.ids, h.keys, fun id file hentry => ?_⟩
  · rw [hloads.other _ (by simp [pubFile]), h.dir]
  · by_cases heq : name = fid
    · subst heq
      exact hloads.link target
    · change result.state.tree.get (store.pubFile name) ≠ _
      rw [hloads.other _ fun hsame => heq (pubFile_injective hsame)]
      exact h.links name target
  · refine (h.entries id file hentry).imp_left fun hgood => ⟨hgood.1, ?_⟩
    rw [hloads.other _ fun hsame => hkey ?_, hgood.2]
    rw [← pubFile_injective hsame]
    exact List.mem_map_of_mem hentry

/-- A load that throws leaves the cache as it is. -/
theorem Valid.get_throw (h : Valid store requests served) (hfid : HexId fid) {memory : Memory}
    (hlookup : served.cache.lookup fid = none) {fault : Exception} {last : World}
    (hload : (store.loadFile memory fid).run served.world = .error fault last) :
    served.get store memory fid = { served with world := last } ∧
      Valid store requests (served.get store memory fid) := by
  have hget : served.get store memory fid = { served with world := last } := by
    rw [get, run_getFile_eq, run_cached_throw hlookup hload]
  have hloads := loads_loadFile memory hfid h.dir (h.links fid)
  have hvalid := h.of_loads (lookup_eq_none_iff_not_mem_keys.mp hlookup) hloads
  rw [hload] at hvalid
  exact ⟨hget, hget ▸ hvalid⟩

/-- A load that returns a file, good or bad, makes an entry for it. -/
theorem Valid.get_load (h : Valid store requests served) (hfid : HexId fid) {memory : Memory}
    (hlookup : served.cache.lookup fid = none) {file : PublicFile} {loaded : World}
    (hload : (store.loadFile memory fid).run served.world = .ok file loaded) :
    (∃ last, (store.cached memory served.cache fid).run served.world =
        .ok (file, store.spared served.cache ++ [(fid, file)]) last) ∧
      (served.get store memory fid).cache = store.spared served.cache ++ [(fid, file)] ∧
      Valid store (requests ++ [fid]) (served.get store memory fid) := by
  have hkey := lookup_eq_none_iff_not_mem_keys.mp hlookup
  have hloads := loads_loadFile memory hfid h.dir (h.links fid)
  have hvalid := h.of_loads hkey hloads
  rw [hload] at hloads hvalid
  obtain ⟨last, hlast, hother, hlink⟩ := run_cached_load hlookup hload h.nodup
    fun id entry hentry => ⟨h.hexId (List.mem_map_of_mem hentry),
      (hvalid.entries id entry hentry).imp_left fun hgood => ⟨hgood.1, _, hgood.2⟩⟩
  have hget : served.get store memory fid =
      { world := last
        cache := store.spared served.cache ++ [(fid, file)]
        written := fun id =>
          if id = fid ∧ served.cache.lookup fid = none then Served.loaded store memory fid served.world
          else served.written id } := by
    rw [get, run_getFile_eq, hlast]
    simp only
    split <;> rfl
  -- the entry that goes is neither the new one nor one of those that stay
  have hstays : ∀ id ∈ (store.spared served.cache ++ [(fid, file)]).map Prod.fst,
      last.tree.get (store.pubFile id) = loaded.tree.get (store.pubFile id) := by
    intro id hid
    refine hother _ fun gone hgone hnot hsame => ?_
    obtain rfl := pubFile_injective hsame
    rw [List.map_append, List.mem_append] at hid
    rcases hid with hid | hid
    · exact hnot hid
    · rw [List.map_singleton, List.mem_singleton] at hid
      rw [hid] at hgone
      exact hkey hgone
  rw [hget]
  refine ⟨⟨last, hlast⟩, rfl,
    ⟨?_, fun name target hname => ?_, fun id hid => ?_, ?_, fun id entry hentry => ?_⟩⟩
  · exact (hother _ fun id _ _ => by simp [pubFile]).trans hvalid.dir
  · exact hvalid.links name target (hlink name target hname)
  · rcases List.mem_append.mp hid with hid | hid
    · exact h.ids id hid
    · rwa [List.mem_singleton.mp hid]
  · rw [keys_spared file hkey, h.keys, touch_recent store.cacheSize_pos]
  · have hfile := hstays id (List.mem_map_of_mem hentry)
    rcases List.mem_append.mp hentry with hold | hnew
    · have hcached := (store.spared_sublist served.cache).subset hold
      have hne : id ≠ fid := fun heq => hkey (heq ▸ List.mem_map_of_mem hcached)
      refine (hvalid.entries id entry hcached).imp_left fun hgood => ⟨hgood.1, ?_⟩
      simp only [hfile, hne, false_and, if_false]
      exact hgood.2
    · obtain ⟨rfl, rfl⟩ := Prod.mk.inj (List.mem_singleton.mp hnew)
      refine (hloads.answer entry loaded rfl).imp_left ?_
      rintro ⟨hgood, content, hcontent⟩
      refine ⟨hgood, ?_⟩
      have hbytes : Served.loaded store memory id served.world = content := by
        rw [Served.loaded, hload, Result.state_ok, FileTree.content, hcontent]
        rfl
      simp only [hlookup, and_self, if_true, hbytes, hfile, hcontent]

/-- A run of `get_file` calls for these ids. In between, anything may change outside the public
directory. -/
inductive Run (store : Blockstore) : List Bytes → Served → Served → Prop where
  | done (served : Served) : Run store [] served served
  | get {requests : List Bytes} {first last : Served} (memory : Memory) {fid : Bytes} :
      Run store requests first last → HexId fid →
        Run store (requests ++ [fid]) first (last.get store memory fid)
  | elsewhere {requests : List Bytes} {first last : Served} (tree : FileTree) :
      Run store requests first last →
        (∀ rest, tree.get (store.pubDir ++ rest) = last.world.tree.get (store.pubDir ++ rest)) →
        Run store requests first { last with world := { last.world with tree := tree } }

/-- Changes outside the public directory keep the cache valid. -/
theorem Valid.elsewhere (h : Valid store requests served) {tree : FileTree}
    (htree : ∀ rest, tree.get (store.pubDir ++ rest) = served.world.tree.get (store.pubDir ++ rest)) :
    Valid store requests { served with world := { served.world with tree := tree } } := by
  refine ⟨?_, fun name target => ?_, h.ids, h.keys, fun id file hentry => ?_⟩
  · have hdir := htree []
    rw [List.append_nil] at hdir
    exact hdir.trans h.dir
  · exact fun hlink => h.links name target ((htree [name]).symm.trans hlink)
  · exact (h.entries id file hentry).imp_left fun hgood => ⟨hgood.1, (htree [id]).trans hgood.2⟩

/-- One call keeps the cache valid, whether or not the load throws. -/
theorem Valid.get (h : Valid store requests served) (hfid : HexId fid) (memory : Memory) :
    ∃ more, more <+: [fid] ∧ Valid store (requests ++ more) (served.get store memory fid) := by
  cases hlookup : served.cache.lookup fid with
  | some file => exact ⟨[fid], List.prefix_rfl, h.get_hit hlookup memory⟩
  | none =>
      cases hload : (store.loadFile memory fid).run served.world with
      | ok file loaded => exact ⟨[fid], List.prefix_rfl, (h.get_load hfid hlookup hload).2.2⟩
      | error fault last =>
          refine ⟨[], List.nil_prefix, ?_⟩
          rw [List.append_nil]
          exact (h.get_throw hfid hlookup hload).2

/-- A run keeps the cache valid. -/
theorem Valid.run {first last : Served} {later : List Bytes} (h : Valid store requests first)
    (hrun : Run store later first last) : ∃ known, Valid store known last := by
  induction hrun with
  | done => exact ⟨requests, h⟩
  | get memory _ hfid ih =>
      obtain ⟨known, hknown⟩ := ih h
      obtain ⟨more, -, hmore⟩ := hknown.get hfid memory
      exact ⟨_, hmore⟩
  | elsewhere tree _ htree ih =>
      obtain ⟨known, hknown⟩ := ih h
      exact ⟨known, hknown.elsewhere htree⟩

/-- The ids other than this one that were requested after its last request. -/
def othersSince (id : Bytes) (requests : List Bytes) : Finset Bytes :=
  (requests.reverse.takeWhile (· ≠ id)).toFinset

/-- A request of another id. -/
theorem othersSince_other {id fid : Bytes} (h : fid ≠ id) (requests : List Bytes) :
    othersSince id (requests ++ [fid]) = insert fid (othersSince id requests) := by
  simp [othersSince, h]

/-- The entry of an id is in the cache, and since its last use only some other ids were used. -/
structure Holds (store : Blockstore) (id : Bytes) (file : PublicFile) (others : Finset Bytes)
    (served : Served) : Prop where
  entry : (id, file) ∈ served.cache
  used : ∃ earlier since, Valid store (earlier ++ [id] ++ since) served ∧ id ∉ since ∧
    ∀ other ∈ since, other ∈ others

/-- The ids that were used are not more than those that were requested. -/
theorem length_recent_le {since : List Bytes} {others : Finset Bytes}
    (h : ∀ other ∈ since, other ∈ others) : (recent since).length ≤ others.card := by
  rw [← List.toFinset_card_of_nodup (nodup_recent since)]
  exact Finset.card_le_card fun other hother =>
    h other (mem_recent.mp (List.mem_toFinset.mp hother))

/-- An entry stays when the id is requested again. -/
theorem Holds.get_same {id : Bytes} {file : PublicFile} {others : Finset Bytes}
    (h : Holds store id file others served) (memory : Memory) (later : Finset Bytes) :
    Holds store id file later (served.get store memory id) := by
  obtain ⟨earlier, since, hvalid, -, -⟩ := h.used
  have hlookup := hvalid.lookup_of_mem h.entry
  refine ⟨?_, earlier ++ [id] ++ since, [], ?_, by simp, by simp⟩
  · rw [get_hit hlookup]
    simp
  · rw [List.append_nil]
    exact hvalid.get_hit hlookup memory

/-- An entry stays when another id is requested, as long as there are fewer of them than the cache
has room for. -/
theorem Holds.get_other {id : Bytes} {file : PublicFile} {others : Finset Bytes}
    (h : Holds store id file others served) (hfid : HexId fid) (hne : fid ≠ id) (memory : Memory)
    (hcard : (insert fid others).card < store.cacheSize) :
    Holds store id file (insert fid others) (served.get store memory fid) := by
  obtain ⟨earlier, since, hvalid, hid, hothers⟩ := h.used
  have hmore : ∀ other ∈ since ++ [fid], other ∈ insert fid others := by
    intro other hother
    rw [Finset.mem_insert]
    rcases List.mem_append.mp hother with hother | hother
    · exact Or.inr (hothers other hother)
    · exact Or.inl (List.mem_singleton.mp hother)
  have hid' : id ∉ since ++ [fid] := by simp [hid, hne.symm]
  cases hlookup : served.cache.lookup fid with
  | some other =>
      refine ⟨?_, earlier, since ++ [fid], ?_, hid', hmore⟩
      · rw [get_hit hlookup]
        simp [h.entry, hne.symm]
      · rw [← List.append_assoc]
        exact hvalid.get_hit hlookup memory
  | none =>
      cases hload : (store.loadFile memory fid).run served.world with
      | error fault last =>
          obtain ⟨hget, hnext⟩ := hvalid.get_throw hfid hlookup hload
          refine ⟨?_, earlier, since, hnext, hid, fun other hother =>
            Finset.mem_insert_of_mem (hothers other hother)⟩
          rw [hget]
          exact h.entry
      | ok other loaded =>
          obtain ⟨-, hcache, hnext⟩ := hvalid.get_load hfid hlookup hload
          rw [List.append_assoc] at hnext
          refine ⟨?_, earlier, since ++ [fid], hnext, hid', hmore⟩
          have hkey : id ∈ (served.get store memory fid).cache.map Prod.fst := by
            rw [hnext.keys, List.mem_reverse]
            exact mem_take_recent hid' ((length_recent_le hmore).trans_lt hcard)
          obtain ⟨⟨same, entry⟩, hentry, rfl⟩ := List.mem_map.mp hkey
          have hcached : (same, entry) ∈ served.cache := by
            rw [hcache] at hentry
            rcases List.mem_append.mp hentry with hold | hnew
            · exact (store.spared_sublist served.cache).subset hold
            · exact absurd (congrArg Prod.fst (List.mem_singleton.mp hnew)) hne.symm
          rwa [hvalid.entry_unique h.entry hcached]

/-- An entry stays as long as fewer other ids are requested after it than the cache has room
for. -/
theorem Holds.run {id : Bytes} {file : PublicFile} {first last : Served} {later : List Bytes}
    (hrun : Run store later first last) (h : Holds store id file ∅ first)
    (hcard : ∀ front, front <+: later → (othersSince id front).card < store.cacheSize) :
    Holds store id file (othersSince id later) last := by
  induction hrun with
  | done => exact h
  | @get requests first last memory fid _ hfid ih =>
      have hlast := ih h fun front hfront => hcard front (hfront.trans (List.prefix_append _ _))
      by_cases heq : fid = id
      · subst heq
        exact hlast.get_same memory _
      · have hlarge := hcard _ List.prefix_rfl
        rw [othersSince_other heq] at hlarge ⊢
        exact hlast.get_other hfid heq memory hlarge
  | elsewhere tree _ htree ih =>
      obtain ⟨hentry, earlier, since, hvalid, hid, hothers⟩ := ih h hcard
      exact ⟨hentry, earlier, since, hvalid.elsewhere htree, hid, hothers⟩

/-- Only a good file is answered with true. -/
theorem good_of_answer {file : PublicFile} {path : Option FilePath} {after cache : FileCache}
    (h : (if file.good = true then (true, file.path, cache) else (false, none, cache)) =
      (true, path, after)) : file.good = true ∧ path = file.path := by
  split at h
  · next hgood => exact ⟨hgood, (congrArg (·.2.1) h).symm⟩
  · simp at h

/-- When `get_file` returns true, the entry of the id is in the cache, a good one. -/
theorem Valid.holds_of_getFile (h : Valid store requests served) (hfid : HexId fid)
    {memory : Memory} {path : Option FilePath} {after : FileCache} {last : World}
    (hrun : (store.getFile memory served.cache fid).run served.world = .ok (true, path, after) last) :
    path = some (store.pubFile fid) ∧
      Holds store fid ⟨path, true⟩ ∅ (served.get store memory fid) := by
  obtain ⟨file, hgood, hpath, hentry, hvalid⟩ : ∃ file : PublicFile, file.good = true ∧
      path = file.path ∧ (fid, file) ∈ (served.get store memory fid).cache ∧
      Valid store (requests ++ [fid]) (served.get store memory fid) := by
    rw [run_getFile_eq] at hrun
    cases hlookup : served.cache.lookup fid with
    | some file =>
        rw [run_cached_hit hlookup] at hrun
        obtain ⟨hgood, hpath⟩ := good_of_answer (Result.ok.inj hrun).1
        exact ⟨file, hgood, hpath, by rw [Served.get_hit hlookup]; simp,
          h.get_hit hlookup memory⟩
    | none =>
        cases hload : (store.loadFile memory fid).run served.world with
        | error fault loaded => simp [run_cached_throw hlookup hload] at hrun
        | ok file loaded =>
            obtain ⟨⟨final, hfinal⟩, hcache, hvalid⟩ := h.get_load hfid hlookup hload
            rw [hfinal] at hrun
            obtain ⟨hgood, hpath⟩ := good_of_answer (Result.ok.inj hrun).1
            exact ⟨file, hgood, hpath, by rw [hcache]; simp, hvalid⟩
  rcases hvalid.entries fid file hentry with ⟨rfl, -⟩ | rfl
  · subst hpath
    exact ⟨rfl, hentry, requests, [], by rwa [List.append_nil], by simp, by simp⟩
  · simp at hgood

end Served

/-- A public file stays valid while its entry is cached. In every state of a run from an empty cache
the public file of each good entry is there and holds what its last load wrote. A path that
`get_file` returned leads to a file as long as, at every moment from then on, fewer other ids were
requested since the last request of its id than the cache has room for. -/
theorem published_while_cached (store : Blockstore) (world : World) (written : Bytes → Bytes)
    (requests : List Bytes) (served : Served)
    (hdir : world.tree.get store.pubDir = some .dir)
    (hlinks : ∀ name target, world.tree.get (store.pubDir ++ [name]) ≠ some (.link target))
    (hrun : Served.Run store requests ⟨world, [], written⟩ served) :
    (∀ id file, (id, file) ∈ served.cache → file.good = true →
      file.path = some (store.pubFile id) ∧
        served.world.tree.get (store.pubFile id) = some (.file (served.written id))) ∧
    ∀ memory id path after last later final, HexId id →
      (store.getFile memory served.cache id).run served.world = .ok (true, path, after) last →
      Served.Run store later (served.get store memory id) final →
      (∀ front, front <+: later → (Served.othersSince id front).card < store.cacheSize) →
      path = some (store.pubFile id) ∧
        ∃ content, final.world.tree.get (store.pubFile id) = some (.file content) := by
  have hstart : Served.Valid store [] ⟨world, [], written⟩ :=
    ⟨hdir, hlinks, by simp, by simp, by simp⟩
  obtain ⟨known, hvalid⟩ := hstart.run hrun
  refine ⟨fun id file hentry hgood => ?_, ?_⟩
  · rcases hvalid.entries id file hentry with ⟨rfl, hfile⟩ | rfl
    · exact ⟨rfl, hfile⟩
    · simp at hgood
  · intro memory id path after last later final hid hget hlater hcard
    obtain ⟨rfl, hholds⟩ := hvalid.holds_of_getFile hid hget
    obtain ⟨hentry, earlier, since, hfinal, -, -⟩ := hholds.run hlater hcard
    rcases hfinal.entries id _ hentry with ⟨-, hfile⟩ | hbad
    · exact ⟨rfl, _, hfile⟩
    · simp at hbad

/-- One zero byte was stored and then requested. -/
def servedZeros : Served :=
  Served.get zeroStore pageMemory (zeroStore.idOf (zeros 1)) ⟨storedZeros 1, [], fun _ => []⟩

/-- The zero byte is in its public file. -/
theorem published_while_cached_zeros_1 :
    servedZeros.world.tree.get (zeroStore.pubFile (zeroStore.idOf (zeros 1))) =
        some (.file (servedZeros.written (zeroStore.idOf (zeros 1)))) ∧
      servedZeros.written (zeroStore.idOf (zeros 1)) = zeros 1 := by
  obtain ⟨stored, hstored, hnow⟩ := run_storeFile_small zeroStore.empty_fresh.sound zeroMemory
    (zeroStore.empty_fresh.view_eq_none _) (show (zeros 1).length ≤ zeroStore.blocksize by decide)
  have hstate : storedZeros 1 = stored := by rw [storedZeros, hstored, Result.state_ok]
  have hpub : ∀ rest, (storedZeros 1).tree.get (zeroStore.pubDir ++ rest) =
      zeroStore.fresh.tree.get (zeroStore.pubDir ++ rest) := fun rest => by
    rw [hstate, hnow.outside _ (zeroStore.not_unique_of_pub (List.prefix_append _ _))]
  refine ⟨((published_while_cached zeroStore (storedZeros 1) (fun _ => [])
    [zeroStore.idOf (zeros 1)] servedZeros ?_ (fun name target => ?_)
    (.get pageMemory (.done _) (zeroStore.hexId_idOf (zeros 1)))).1 _
      ⟨some (zeroStore.pubFile (zeroStore.idOf (zeros 1))), true⟩ ?_ rfl).2, by decide +kernel⟩
  · rw [← List.append_nil zeroStore.pubDir, hpub, List.append_nil]
    exact zeroStore.empty_fresh.pub
  · rw [hpub, zeroStore.empty_fresh.pubEmpty _ (by simp)]
    simp
  · decide +kernel

end Blockstore

end AnarchNet
