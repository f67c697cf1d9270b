import AnarchNet.Blockstore.Lifetime
import AnarchNet.Lib.FileMaking
import AnarchNet.Lib.PathMax

/-!
# When the block store throws

`store_file` never throws. `get_file` throws for an id without a path text, without a header or with
a public path that cannot be opened, and when the block ids of a header have to be given up; when
the cache is full it throws too if the oldest public file cannot be removed. No stream opens a path
whose text is longer than a system takes. `ends_getFileWithin_iff` says so for every id and every
tree.
-/

namespace AnarchNet

open FileSystem EStateM

/-- Paths locate what they did before, and directories list what they did. -/
structure SameEntries (before after : World) : Prop where
  locate : ∀ path, after.tree.locate path = before.tree.locate path
  names : ∀ dir, after.tree.names dir = before.tree.names dir

instance : Std.Refl SameEntries := ⟨fun _ => ⟨fun _ => rfl, fun _ => rfl⟩⟩

instance : IsTrans World SameEntries :=
  ⟨fun _ _ _ h h' => ⟨fun path => (h'.locate path).trans (h.locate path),
    fun dir => (h'.names dir).trans (h.names dir)⟩⟩

/-- A call that leaves the tree alone. -/
theorem sameEntries_of_tree_eq {before after : World} (h : after.tree = before.tree) :
    SameEntries before after :=
  ⟨fun _ => by rw [h], fun _ => by rw [h]⟩

/-- Writing to a file. -/
theorem sameEntries_writeAt (file : FilePath) (position : Nat) (bytes : Bytes) :
    Preserves SameEntries (writeAt file position bytes : Storage Unit) :=
  fun _ => ⟨fun path => FileTree.locate_write file _ path, fun dir => FileTree.names_write file _ dir⟩

namespace Blockstore

variable {store : Blockstore} {memory : Memory} {world : World}

/-! ## Storing -/

/-- Storing the blocks of a file keeps the tree. -/
theorem keeps_storeBlocks (memory : Memory) (content : Bytes) (header : FilePath)
    (count index : Nat) (stream : OutStream) (old : Bytes) :
    Preserves Keeps (store.storeBlocks memory content header count index stream old) := by
  induction count generalizing index stream old with
  | zero => exact Preserves.pure true
  | succ count ih =>
      refine Preserves.bind ?_ fun stored =>
        Preserves.ite (fun _ => ih _ _ _) fun _ => Preserves.pure _
      refine Preserves.bind (FFStore.preserves_pathText _) fun text =>
        Preserves.bind (keeps_openBlock _ text) fun file => ?_
      cases file with
      | none => exact Preserves.pure _
      | some file =>
          have hlist : ∀ bytes, Preserves Keeps (do
              writeAt header stream.length bytes
              return true : Storage Bool) := fun bytes =>
            Preserves.bind (keeps_writeAt _ _ _) fun _ => Preserves.pure _
          exact Preserves.bind (keeps_writeAt _ _ _) fun _ => Preserves.ite
            (fun _ => Preserves.bind (keeps_writeAt _ _ _) fun _ => hlist _) fun _ => hlist _

/-- `store_file` keeps the tree. -/
theorem keeps_storeFile (memory : Memory) (source : Option Bytes) :
    Preserves Keeps (store.storeFile memory source) := by
  cases source with
  | none => exact Preserves.pure _
  | some content =>
      refine Preserves.bind (FFStore.preserves_pathText _) fun hpath =>
        Preserves.tryCatch (Preserves.bind keeps_present fun there =>
          Preserves.ite (fun _ => Preserves.pure _) fun _ =>
            Preserves.bind (keeps_openBlock _ hpath) fun opened => ?_) fun fault => ?_
      · cases opened with
        | none => exact Preserves.pure _
        | some header =>
            refine Preserves.bind (keeps_writeAt _ _ _) fun _ => Preserves.ite (fun _ => ?_) fun _ => ?_
            · exact Preserves.bind (keeps_writeAt _ _ _) fun _ => Preserves.pure _
            · exact Preserves.bind (keeps_storeBlocks _ _ _ _ _ _ _) fun stored =>
                Preserves.ite (fun _ => Preserves.pure _) fun _ => Preserves.pure _
      · cases fault with
        | filesystemError => exact Preserves.pure _
        | _ => exact Preserves.throw _

/-- Opening a block throws only errors of the file system. -/
theorem throws_openBlock (dir : FilePath) (text : Bytes) :
    Throws (· = .filesystemError) (openBlock dir text) := by
  refine Throws.bind throws_ensureDirectory fun made => Throws.ite ?_ (Throws.pure _)
  refine Throws.of_ends fun world => ?_
  rw [Ends, run_openOut_eq]
  cases world.tree.opened (dir ++ components text) with
  | none => exact ⟨_, _, rfl⟩
  | some opened => exact ⟨_, _, rfl⟩

/-- Writing throws nothing. -/
theorem throws_writeAt (file : FilePath) (position : Nat) (bytes : Bytes) :
    Throws (· = .filesystemError) (writeAt file position bytes : Storage Unit) :=
  Throws.of_ends fun _ => ⟨_, _, rfl⟩

/-- The path text of a hash throws nothing. -/
theorem throws_pathText (store : Blockstore) (bytes : Bytes) :
    Throws (· = .filesystemError) (pathText (toHex (store.sha.hash bytes))) :=
  Throws.of_ends fun world => ⟨_, world, run_pathText (store.sha.hexId bytes) world⟩

/-- Storing the blocks of a file throws only errors of the file system. -/
theorem throws_storeBlocks (memory : Memory) (content : Bytes) (header : FilePath)
    (count index : Nat) (stream : OutStream) (old : Bytes) :
    Throws (· = .filesystemError)
      (store.storeBlocks memory content header count index stream old) := by
  induction count generalizing index stream old with
  | zero => exact Throws.pure true
  | succ count ih =>
      refine Throws.bind ?_ fun stored => Throws.ite (ih _ _ _) (Throws.pure _)
      refine Throws.bind (throws_pathText store _) fun text =>
        Throws.bind (throws_openBlock _ text) fun file => ?_
      cases file with
      | none => exact Throws.pure _
      | some file =>
          have hlist : ∀ bytes, Throws (· = .filesystemError) (do
              writeAt header stream.length bytes
              return true : Storage Bool) := fun bytes =>
            Throws.bind (throws_writeAt _ _ _) fun _ => Throws.pure _
          exact Throws.bind (throws_writeAt _ _ _) fun _ =>
            Throws.ite (Throws.bind (throws_writeAt _ _ _) fun _ => hlist _) (hlist _)

/-- `store_file` always returns: it catches what its calls throw. -/
theorem ends_storeFile (store : Blockstore) (memory : Memory) (source : Option Bytes)
    (world : World) : Ends (store.storeFile memory source) world := by
  refine Throws.ends ?_ world
  cases source with
  | none => exact Throws.pure _
  | some content =>
      refine Throws.bind (Throws.of_ends fun world =>
        ⟨_, world, run_pathText (store.sha.hexId content) world⟩) fun hpath => ?_
      refine Throws.tryCatch (P := (· = .filesystemError)) ?_ fun fault hfault => ?_
      · refine Throws.bind (Throws.of_ends fun world => ⟨_, world, rfl⟩)
          fun there => Throws.ite (Throws.pure _) ?_
        refine Throws.bind (throws_openBlock _ _) fun opened => ?_
        cases opened with
        | none => exact Throws.pure _
        | some header =>
            refine Throws.bind (throws_writeAt _ _ _) fun _ => Throws.ite ?_ ?_
            · exact Throws.bind (throws_writeAt _ _ _) fun _ => Throws.pure _
            · exact Throws.bind (throws_storeBlocks _ _ _ _ _ _ _) fun stored =>
                Throws.ite (Throws.pure _) (Throws.pure _)
      · subst hfault
        exact Throws.pure _

/-! ## Loading -/

/-- The block ids of a header can be copied to the public file: none that is come to holds a zero
byte, and the end of every block is read. -/
def CopyFits (store : Blockstore) (direct : Nat) (tree : FileTree) (out : FilePath) :
    List Bytes → OutStream → Bool → Prop
  | [], _, _ => True
  | bid :: rest, stream, failed =>
      (0 : UInt8) ∉ bid ∧ ∀ file, tree.resolve (store.fileAt bid) = some file →
        ∃ bytes, blockBytes tree out file stream failed = some bytes ∧
          CopyFits store direct tree out rest (stream.insert direct bytes) (bytes = [])

/-- The loop of `load_file` returns exactly if the ids can be copied; it throws only where a file is
not found, and does not come back where the end of a block is never read. -/
theorem run_copyBlocks_cases (store : Blockstore) (direct : Nat) {tree : FileTree} {out : FilePath}
    {ids : List Bytes} (hids : ∀ bid ∈ ids, 4 ≤ bid.length) {text : Bytes} {stream : OutStream}
    (failed : Bool) (h : Writing tree out text world.tree) (hstream : stream.length = text.length) :
    (CopyFits store direct tree out ids stream failed ∧
        Ends (store.copyBlocks direct out ids stream failed) world) ∨
      ¬ CopyFits store direct tree out ids stream failed ∧
        ∃ fault last, (fault = .fileNotFound ∨ fault = .undefined) ∧
          (store.copyBlocks direct out ids stream failed).run world = .error fault last := by
  induction ids generalizing world text stream failed with
  | nil => exact Or.inl ⟨trivial, true, world, rfl⟩
  | cons bid ids ih =>
      have hbid := hids bid List.mem_cons_self
      have hrest : ∀ other ∈ ids, 4 ≤ other.length := fun other hother =>
        hids other (List.mem_cons_of_mem _ hother)
      by_cases hzero : (0 : UInt8) ∈ bid
      · refine Or.inr ⟨fun hfits => hfits.1 hzero, .fileNotFound, world, Or.inl rfl, ?_⟩
        simp [copyBlocks, run_bind, run_pathText_of_le hbid, hzero]
      cases hfile : tree.resolve (store.fileAt bid) with
      | none =>
          have hresolve : world.tree.resolve (store.uniqueDir ++ components (shardText bid)) = none :=
            (h.resolve _).trans hfile
          refine Or.inl ⟨⟨hzero, by simp [hfile]⟩, false, ?_⟩
          simp [copyBlocks, run_bind, run_pathText_of_le hbid, hzero, hresolve]
      | some file =>
          cases hblock : blockBytes tree out file stream failed with
          | none =>
              obtain ⟨last, hlast⟩ : ∃ last, (store.copyBlocks direct out (bid :: ids) stream
                  failed).run world = .error .undefined last :=
                run_copyBlocks_endless hbid hzero hfile h ids hblock
              refine Or.inr ⟨fun hfits => ?_, .undefined, last, Or.inr rfl, hlast⟩
              obtain ⟨bytes, hbytes, -⟩ := hfits.2 file hfile
              rw [hblock] at hbytes
              cases hbytes
          | some bytes =>
              obtain ⟨middle, hmiddle, hrun⟩ : ∃ middle : World,
                  Writing tree out (text ++ bytes) middle.tree ∧
                    (store.copyBlocks direct out (bid :: ids) stream failed).run world = _ :=
                run_copyBlocks_cons hbid hzero hfile h hstream ids hblock
              have hlonger : (stream.insert direct bytes).length = (text ++ bytes).length := by
                rw [OutStream.length_insert, hstream, List.length_append]
              have hfits : CopyFits store direct tree out (bid :: ids) stream failed ↔
                  CopyFits store direct tree out ids (stream.insert direct bytes) (bytes = []) := by
                simp [CopyFits, hzero, hfile, hblock]
              rw [Ends, hrun, hfits]
              exact ih hrest _ hmiddle hlonger

/-- What the header that was read lets `load_file` do: a small file is in the header itself, the
blocks of a large one can be copied. -/
def PublishFits (store : Blockstore) (memory : Memory) (tree : FileTree) (out : FilePath)
    (header : Option Bytes) : Prop :=
  headerSize memory header ≤ store.blocksize - 4 ∨
    ∃ text, header = some text ∧ CopyFits store memory.direct tree out
      (wholePieces hashSize (text.drop 4)) .opened false

/-- Once its files are open `load_file` returns exactly if the header lets it; it throws only where
a file is not found. -/
theorem run_publish_cases (store : Blockstore) {tree : FileTree} (memory : Memory)
    (path : FilePath) {out : FilePath} (header : Option Bytes) (h : Writing tree out [] world.tree) :
    (PublishFits store memory tree out header ∧
        Ends (store.publish memory path out header) world) ∨
      ¬ PublishFits store memory tree out header ∧
        ∃ fault last, (fault = .fileNotFound ∨ fault = .undefined) ∧
          (store.publish memory path out header).run world = .error fault last := by
  by_cases hsmall : headerSize memory header ≤ store.blocksize - 4
  · refine Or.inl ⟨Or.inl hsmall, ⟨some path, true⟩, ?_⟩
    have hvalue : uintValue (((header.getD []).take 4 ++
        memory.integer.drop (header.getD []).length).take 4) ≤ store.blocksize - 4 := hsmall
    simp only [publish, if_pos hvalue]
    exact ⟨_, rfl⟩
  cases header with
  | none =>
      refine Or.inr ⟨?_, .fileNotFound, world, Or.inl rfl,
        run_publish_none path out (not_le.mp hsmall)⟩
      rintro (hfits | ⟨text, htext, -⟩)
      · exact hsmall hfits
      · cases htext
  | some text =>
      have hfits : PublishFits store memory tree out (some text) ↔
          CopyFits store memory.direct tree out (wholePieces hashSize (text.drop 4)) .opened
            false := by
        simp [PublishFits, hsmall]
      have hids : ∀ bid ∈ wholePieces hashSize (text.drop 4), 4 ≤ bid.length := fun bid hbid => by
        rw [length_of_mem_wholePieces hbid]
        decide
      have hvalue : ¬ uintValue ((text.take 4 ++ memory.integer.drop text.length).take 4) ≤
          store.blocksize - 4 := hsmall
      rw [hfits]
      simp only [publish, Option.getD_some, if_neg hvalue, Option.isNone_some, Bool.false_eq_true,
        if_false]
      refine (run_copyBlocks_cases store memory.direct hids false h OutStream.length_opened).imp ?_ ?_
      · rintro ⟨hcopy, all, last, hrun⟩
        refine ⟨hcopy, (ends_bind_iff hrun).2 ?_⟩
        cases all with
        | true => exact ⟨_, last, rfl⟩
        | false => exact ⟨_, last, rfl⟩
      · rintro ⟨hcopy, fault, last, hfault, hrun⟩
        exact ⟨hcopy, fault, last, hfault, by rw [run_bind, hrun]⟩

/-- A file can be loaded: its id has a path text, there is a header, the public file can be opened,
which leaves the tree `opened`, and the header lets it be published. -/
def LoadFits (store : Blockstore) (memory : Memory) (tree : FileTree) (fid : Bytes)
    (opened : FileTree) : Prop :=
  4 ≤ fid.length ∧ ∃ header out, tree.resolve (store.fileAt fid) = some header ∧
    tree.opened (store.pubAt fid) = some (opened, out) ∧
    PublishFits store memory opened out (opened.content header)

/-- There is only one such tree. -/
theorem LoadFits.unique {tree opened other : FileTree} {fid : Bytes}
    (h : LoadFits store memory tree fid opened) (hother : LoadFits store memory tree fid other) :
    opened = other := by
  obtain ⟨-, -, out, -, hopened, -⟩ := h
  obtain ⟨-, -, back, -, hback, -⟩ := hother
  exact (Prod.mk.inj (Option.some.inj (hopened.symm.trans hback))).1

/-- `load_file` returns exactly if the file can be loaded, and only writes the file that it opened.
-/
theorem run_loadFile_cases (store : Blockstore) (memory : Memory) (fid : Bytes) (world : World) :
    (∃ started file last, LoadFits store memory world.tree fid started.tree ∧
        (store.loadFile memory fid).run world = .ok file last ∧ SameEntries started last) ∨
      (∀ opened, ¬ LoadFits store memory world.tree fid opened) ∧
        ∃ fault last, (store.loadFile memory fid).run world = .error fault last := by
  by_cases hfid : 4 ≤ fid.length
  · by_cases hclosed : world.tree.resolve (store.fileAt fid) = none ∨
        world.tree.opened (store.pubAt fid) = none
    · obtain ⟨last, hlast, -⟩ := run_loadFile_closed memory hfid hclosed
      refine Or.inr ⟨?_, _, last, hlast⟩
      rintro opened ⟨-, header, out, hheader, hopened, -⟩
      simp [hheader, hopened] at hclosed
    · rw [not_or] at hclosed
      obtain ⟨header, hheader⟩ := Option.ne_none_iff_exists'.mp hclosed.1
      obtain ⟨⟨opened, out⟩, hopened⟩ := Option.ne_none_iff_exists'.mp hclosed.2
      obtain ⟨started, rfl, hrun⟩ := run_loadFile_opened memory hfid hheader hopened
      have hwriting : Writing started.tree out [] started.tree :=
        ⟨fun _ => rfl, fun _ _ => rfl, by rw [(FileTree.opened_eq_some hopened).2, if_pos rfl]⟩
      have hentries : SameEntries started ((store.publish memory (store.pubAt fid) out
          (started.tree.content header)).run started).state :=
        preserves_publish (fun _ _ => sameEntries_of_tree_eq) (sameEntries_writeAt out) _ _ started
      rcases run_publish_cases store memory (store.pubAt fid) (started.tree.content header)
          hwriting with
        ⟨hfits, file, last, hpublish⟩ | ⟨hfits, fault, last, hfault, hpublish⟩
      · rw [hpublish] at hrun hentries
        exact Or.inl ⟨started, file, last, ⟨hfid, header, out, hheader, hopened, hfits⟩, hrun,
          hentries⟩
      · have herror : (store.loadFile memory fid).run world = .error fault last := by
          rw [hrun, hpublish]
          rcases hfault with rfl | rfl <;> rfl
        refine Or.inr ⟨?_, fault, last, herror⟩
        rintro other ⟨-, found, back, hfound, hother, hpublished⟩
        obtain rfl : header = found := Option.some.inj (hheader.symm.trans hfound)
        obtain ⟨rfl, rfl⟩ := Prod.mk.inj (Option.some.inj (hopened.symm.trans hother))
        exact hfits hpublished
  · exact Or.inr ⟨fun opened hfits => hfid hfits.1, .outOfRange, world,
      run_loadFile_short memory hfid world⟩

/-! ## Getting -/

/-- What `remove` is asked to remove is gone or can be removed. -/
def Goes (tree : FileTree) (path : FilePath) : Prop :=
  tree.locate path = none ∨ tree.Takes path

/-- The file of an evicted entry is removed exactly if it goes. -/
theorem ends_destroy_iff {file : PublicFile} :
    Ends (destroy file) world ↔ ∀ path, file.path = some path → Goes world.tree path := by
  rw [destroy]
  cases file.path with
  | none => exact iff_of_true ⟨(), world, rfl⟩ (by simp)
  | some path =>
      simp only [Ends, Option.some.injEq, forall_eq', Goes, FileTree.Takes, remove, run_bind,
        run_record, run_get]
      cases hlocate : world.tree.locate path with
      | none => exact iff_of_true ⟨(), _, rfl⟩ (Or.inl rfl)
      | some found =>
          by_cases htakes : EndsInName path ∧ found ≠ [] ∧ world.tree.names found = []
          · simp only [if_pos htakes]
            exact iff_of_true ⟨(), _, rfl⟩ (Or.inr ⟨found, rfl, htakes⟩)
          · simp only [if_neg htakes]
            refine iff_of_false (by simp) ?_
            rintro (hnone | ⟨other, hother, htaken⟩)
            · cases hnone
            · exact htakes (Option.some.inj hother ▸ htaken)

/-- When the cache is full, its oldest public file goes. -/
def SpareFits (store : Blockstore) (tree : FileTree) (cache : FileCache) : Prop :=
  cache.length = store.cacheSize → ∀ entry ∈ cache.head?, ∀ path ∈ entry.2.path, Goes tree path

/-- A file can be got: it is in the cache, or it can be loaded and, once its public file is open,
there is room for it. -/
def GetFits (store : Blockstore) (memory : Memory) (tree : FileTree) (cache : FileCache)
    (fid : Bytes) : Prop :=
  (cache.lookup fid).isSome ∨
    ∃ opened, LoadFits store memory tree fid opened ∧ SpareFits store opened cache

/-- The cache returns a file exactly if it can be got. -/
theorem ends_cached_iff (store : Blockstore) (memory : Memory) (cache : FileCache) (fid : Bytes)
    (world : World) :
    Ends (store.cached memory cache fid) world ↔ GetFits store memory world.tree cache fid := by
  rw [GetFits]
  cases hlookup : cache.lookup fid with
  | some file => exact iff_of_true ⟨_, world, run_cached_hit hlookup world⟩ (Or.inl rfl)
  | none =>
      rw [Option.isSome_none, or_iff_right Bool.false_ne_true]
      rcases run_loadFile_cases store memory fid world with
        ⟨started, file, loaded, hfits, hload, hsame⟩ | ⟨hfits, fault, last, hload⟩
      · have hspare : (∃ opened, LoadFits store memory world.tree fid opened ∧
            SpareFits store opened cache) ↔ SpareFits store started.tree cache := by
          constructor
          · rintro ⟨opened, hopened, hspare⟩
            rwa [hfits.unique hopened]
          · exact fun hspare => ⟨started.tree, hfits, hspare⟩
        have hgoes : ∀ path, Goes loaded.tree path ↔ Goes started.tree path := fun path => by
          simp only [Goes, FileTree.Takes, hsame.locate, hsame.names]
        rw [hspare, cached, hlookup, ends_bind_iff hload]
        cases cache with
        | nil => exact iff_of_true ⟨_, loaded, rfl⟩ (by simp [SpareFits])
        | cons entry rest =>
            have hspare : SpareFits store started.tree (entry :: rest) ↔
                ((entry :: rest).length = store.cacheSize →
                  ∀ path, entry.2.path = some path → Goes loaded.tree path) := by
              simp [SpareFits, hgoes]
            rw [hspare]
            by_cases hfull : (entry :: rest).length = store.cacheSize
            · simp only [hfull, forall_const, if_true]
              rw [← ends_destroy_iff]
              exact ends_bind_of_forall (fun _ last => ⟨_, last, rfl⟩) loaded
            · simp only [if_neg hfull]
              exact iff_of_true ⟨_, loaded, rfl⟩ fun heq => absurd heq hfull
      · rw [Ends, run_cached_throw hlookup hload]
        refine iff_of_false (by simp) ?_
        rintro ⟨opened, hopened, -⟩
        exact hfits opened hopened

/-- `get_file` returns exactly if the file can be got. -/
theorem ends_getFile_iff (store : Blockstore) (memory : Memory) (cache : FileCache) (fid : Bytes)
    (world : World) :
    Ends (store.getFile memory cache fid) world ↔ GetFits store memory world.tree cache fid := by
  refine (ends_bind_of_forall (fun answer last => ?_) world).trans
    (ends_cached_iff store memory cache fid world)
  rw [Ends, run_ite]
  split
  · exact ⟨_, last, rfl⟩
  · exact ⟨_, last, rfl⟩

/-- `get_file` on a system with a longest path. A file that is not in the cache is not found where
the path of its header or of its public file is too long. -/
def getFileWithin (store : Blockstore) (memory : Memory) (cache : FileCache) (fid : Bytes) :
    Storage (Bool × Option FilePath × FileCache) :=
  match cache.lookup fid with
  | some _ => store.getFile memory cache fid
  | none => do
      let text ← pathText fid
      if TooLong (store.uniqueDir ++ components text) ∨
          TooLong (store.pubDir ++ components fid) then throw .fileNotFound
      else store.getFile memory cache fid

/-- A file can be got there: if it is not in the cache, no path is too long. -/
def GetFitsWithin (store : Blockstore) (memory : Memory) (tree : FileTree) (cache : FileCache)
    (fid : Bytes) : Prop :=
  GetFits store memory tree cache fid ∧
    (cache.lookup fid = none → ¬ TooLong (store.fileAt fid) ∧ ¬ TooLong (store.pubAt fid))

/-- `get_file` returns exactly if the file can be got there. -/
theorem ends_getFileWithin_iff (store : Blockstore) (memory : Memory) (cache : FileCache)
    (fid : Bytes) (world : World) : Ends (store.getFileWithin memory cache fid) world ↔
      GetFitsWithin store memory world.tree cache fid := by
  rw [getFileWithin, GetFitsWithin, ← ends_getFile_iff]
  cases hlookup : cache.lookup fid with
  | some file => simp
  | none =>
      simp only [forall_const]
      by_cases hfid : 4 ≤ fid.length
      · rw [ends_bind_iff (run_pathText_of_le hfid world), ← not_or,
          show store.uniqueDir ++ components (shardText fid) = store.fileAt fid from rfl,
          show store.pubDir ++ components fid = store.pubAt fid from rfl]
        by_cases hlong : TooLong (store.fileAt fid) ∨ TooLong (store.pubAt fid)
        · rw [if_pos hlong]
          exact iff_of_false (by simp [Ends]) fun hboth => hboth.2 hlong
        · rw [if_neg hlong, and_iff_left hlong]
      · -- an id without a path text ends both
        have hends : ¬ Ends (store.getFile memory cache fid) world := by
          rw [ends_getFile_iff, GetFits, hlookup]
          rintro (hsome | ⟨opened, hload, -⟩)
          · cases hsome
          · exact hfid hload.1
        refine iff_of_false ?_ fun hboth => hends hboth.1
        exact not_ends_bind (run_pathText_short hfid world)

/-- `load_file` keeps the tree. -/
theorem keeps_loadFile (memory : Memory) (fid : Bytes) :
    Preserves Keeps (store.loadFile memory fid) := by
  refine Preserves.tryCatch ?_ fun fault => ?_
  · refine Preserves.bind (FFStore.preserves_pathText _) fun text =>
      Preserves.bind (fun _ => keeps_of_tree_eq rfl) fun header => ?_
    cases header with
    | none => exact Preserves.throw _
    | some header =>
        refine Preserves.bind keeps_openOut fun out => ?_
        cases out with
        | none => exact Preserves.throw _
        | some out =>
            exact Preserves.bind (fun _ => keeps_of_tree_eq rfl) fun text =>
              preserves_publish (fun _ _ => keeps_of_tree_eq) (keeps_writeAt out) _ _
  · cases fault with
    | filesystemError => exact Preserves.pure _
    | _ => exact Preserves.throw _

/-- `get_file` makes no link. -/
theorem oldLinks_getFile (memory : Memory) (cache : FileCache) (fid : Bytes) :
    Preserves OldLinks (store.getFile memory cache fid) := by
  refine Preserves.bind ?_ fun answer => Preserves.ite (fun _ => Preserves.pure _) fun _ =>
    Preserves.pure _
  have hload : Preserves OldLinks (store.loadFile memory fid) :=
    (keeps_loadFile memory fid).imp fun _ _ => Keeps.oldLinks
  rw [cached]
  cases cache.lookup fid with
  | some file => exact Preserves.pure _
  | none =>
      refine Preserves.bind hload fun file => ?_
      cases cache with
      | nil => exact Preserves.pure _
      | cons entry rest =>
          refine Preserves.ite (fun _ => Preserves.bind ?_ fun _ => Preserves.pure _) fun _ =>
            Preserves.pure _
          rw [destroy]
          cases entry.2.path with
          | none => exact Preserves.pure _
          | some path => exact Preserves.bind oldLinks_remove fun _ => Preserves.pure _

/-- Nor does it on a system with a longest path. -/
theorem oldLinks_getFileWithin (memory : Memory) (cache : FileCache) (fid : Bytes) :
    Preserves OldLinks (store.getFileWithin memory cache fid) := by
  rw [getFileWithin]
  cases cache.lookup fid with
  | some file => exact oldLinks_getFile memory cache fid
  | none =>
      exact Preserves.bind (FFStore.preserves_pathText _) fun text =>
        Preserves.ite (fun _ => Preserves.throw _) fun _ => oldLinks_getFile memory cache fid

end Blockstore

end AnarchNet
