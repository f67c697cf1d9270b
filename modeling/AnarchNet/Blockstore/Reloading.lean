import AnarchNet.Blockstore.Lifetime
import AnarchNet.Blockstore.Outside

/-!
# Loading a file again

`load_file` reads the header of an id and the blocks that the header lists, and writes the public
file. Two loads end alike and publish the same bytes if they find the same bytes there, whatever
else is in the two trees.
-/

namespace AnarchNet

open FileSystem EStateM

namespace Blockstore

variable {store : Blockstore} {memory : Memory}

/-- There are no links, and the public directory is there and holds no directories. -/
structure Tidy (store : Blockstore) (tree : FileTree) : Prop where
  links : tree.NoLinks
  dir : tree.get store.pubDir = some .dir
  files : ∀ name, tree.get (store.pubDir ++ [name]) ≠ some .dir

/-- The block ids that `load_file` finds in a header: none in that of a small file. -/
def listed (store : Blockstore) (text : Bytes) : List Bytes :=
  if store.blocksize - 4 < uintValue (text.take 4) then wholePieces hashSize (text.drop 4) else []

/-- A header that holds the length and, if the file is small, that many bytes. Loading it reads no
memory that was not written. -/
def Complete (store : Blockstore) (text : Bytes) : Prop :=
  4 ≤ text.length ∧ (uintValue (text.take 4) ≤ store.blocksize - 4 →
    4 + uintValue (text.take 4) ≤ text.length)

/-- Whether a header is complete can be computed. -/
instance (store : Blockstore) (text : Bytes) : Decidable (store.Complete text) :=
  inferInstanceAs (Decidable (_ ∧ _))

/-- The block ids of a header up to the first one with a zero byte, which is not opened, or the
first one that leads nowhere. -/
def idsRead (store : Blockstore) (tree : FileTree) : List Bytes → List Bytes
  | [] => []
  | bid :: rest =>
      if (0 : UInt8) ∈ bid then []
      else bid :: if (tree.resolve (store.fileAt bid)).isSome then idsRead store tree rest else []

/-- The block ids that a load of the id comes to. -/
def blocksRead (store : Blockstore) (tree : FileTree) (fid : Bytes) : List Bytes :=
  match tree.seen (store.fileAt fid) with
  | some (some text) => store.idsRead tree (store.listed text)
  | _ => []

/-- A load of the id in the one tree finds the bytes that it finds in the other, and all of them
outside the public directory. -/
structure SameSource (store : Blockstore) (fid : Bytes) (one two : FileTree) : Prop where
  header : one.seen (store.fileAt fid) = two.seen (store.fileAt fid)
  apart : ∀ bid ∈ store.blocksRead one fid, Avoids store.pubDir (store.fileAt bid)
  blocks : ∀ bid ∈ store.blocksRead one fid,
    one.seen (store.fileAt bid) = two.seen (store.fileAt bid)

/-- `load_file`, and the bytes that are in the public file then. -/
def fetch (store : Blockstore) (memory : Memory) (fid : Bytes) :
    Storage (PublicFile × Option Bytes) := do
  let file ← store.loadFile memory fid
  let bytes ← readAll (store.pubFile fid)
  return (file, bytes)

/-- A load that returned, and what was in the public file then. -/
theorem run_fetch_eq_ok {fid : Bytes} {world last : World} {file : PublicFile}
    {content : Option Bytes} :
    (store.fetch memory fid).run world = .ok (file, content) last ↔
      (store.loadFile memory fid).run world = .ok file last ∧
        content = last.tree.content (store.pubFile fid) := by
  rw [fetch, run_bind]
  cases (store.loadFile memory fid).run world with
  | ok found loaded =>
      simp only [run_bind, run_readAll, run_pure, Result.ok.injEq, Prod.mk.injEq]
      constructor
      · rintro ⟨⟨rfl, rfl⟩, rfl⟩
        exact ⟨⟨rfl, rfl⟩, rfl⟩
      · rintro ⟨⟨rfl, rfl⟩, rfl⟩
        exact ⟨⟨rfl, rfl⟩, rfl⟩
  | error fault loaded => simp

/-- A load that threw. -/
theorem run_fetch_eq_error {fid : Bytes} {world last : World} {fault : Exception} :
    (store.fetch memory fid).run world = .error fault last ↔
      (store.loadFile memory fid).run world = .error fault last := by
  rw [fetch, run_bind]
  cases (store.loadFile memory fid).run world with
  | ok found loaded => simp [run_readAll]
  | error thrown loaded => simp

/-! ## The public file -/

/-- The public path of an id. -/
theorem pubAt_eq {fid : Bytes} (hfid : HexId fid) : store.pubAt fid = store.pubFile fid := by
  rw [pubAt, hfid.components_self, pubFile]

/-- It has valid names. -/
theorem validPath_pubFile {fid : Bytes} (hfid : HexId fid) : ValidPath (store.pubFile fid) :=
  validPath_append.2 ⟨store.pubDir_valid, validPath_cons.2 ⟨hfid.validName, validPath_nil⟩⟩

/-- It lies below the public directory. -/
theorem below_pubFile (store : Blockstore) (fid : Bytes) :
    Below store.pubDir (store.pubFile fid) :=
  ⟨List.prefix_append _ _, by simp [pubFile]⟩

/-- A tidy tree stays one while files are written and removed in the public directory. -/
theorem Tidy.of_refilled {before after : World} (h : Tidy store before.tree)
    (hrefilled : Refilled store.pubDir before after) : Tidy store after.tree := by
  refine ⟨hrefilled.noLinks h.links, ?_, fun name hdir => ?_⟩
  · rw [FileTree.get_of_outer hrefilled.outer fun hbelow => hbelow.2 rfl, h.dir]
  · rcases hrefilled.old _ _ hdir with ⟨content, hfile⟩ | hold
    · cases hfile
    · exact h.files name hold

/-- A tidy tree stays one when nothing below the public directory changes. -/
theorem Tidy.of_inner {before after : FileTree} (h : Tidy store before) (hlinks : after.NoLinks)
    (hdir : after.get store.pubDir = some .dir)
    (hinner : after.inner store.pubDir = before.inner store.pubDir) : Tidy store after := by
  refine ⟨hlinks, hdir, fun name hnode => h.files name ?_⟩
  exact (FileTree.get_of_inner hinner (store.below_pubFile name)).symm.trans hnode

/-- The public file of an id can always be opened. -/
theorem Tidy.exists_opened {tree : FileTree} (h : Tidy store tree) {fid : Bytes}
    (hfid : HexId fid) :
    ∃ opened, tree.opened (store.pubAt fid) = some (opened, store.pubFile fid) := by
  have hplain : Plain (store.pubFile fid) := (validPath_pubFile hfid).plain
  rw [pubAt_eq hfid, FileTree.opened]
  cases hnode : tree.get (store.pubFile fid) with
  | none =>
      rw [FileTree.resolve_of_missing h.links.avoidDirs hplain hnode,
        show tree.slot (store.pubFile fid) = some (store.pubDir, fid) from
          FileTree.slot_of_plain hplain h.dir]
      obtain ⟨made, hmade⟩ := FileTree.create_isSome (.file []) h.dir hnode hfid.validName
      exact ⟨made, by simp only [hmade, Option.map_some, pubFile]⟩
  | some node =>
      cases node with
      | dir => exact absurd hnode (h.files fid)
      | link target => exact absurd hnode (h.links _ target)
      | file content =>
          rw [FileTree.resolve_of_get hplain hnode (by simp)]
          simp only [hnode]
          exact ⟨_, rfl⟩

/-- Opening a file below a directory changes nothing else. -/
theorem refilled_opened {top path file : FilePath} {world started : World} {opened : FileTree}
    (h : world.tree.opened path = some (opened, file)) (hfile : Below top file)
    (hstarted : started.tree = opened) : Refilled top world started := by
  refine ⟨by rw [hstarted, FileTree.outer_opened h hfile], fun other node hnode => ?_⟩
  rw [hstarted, (FileTree.opened_eq_some h).2] at hnode
  split at hnode
  · exact Or.inl ⟨[], (Option.some.inj hnode).symm⟩
  · exact Or.inr hnode

/-- Loading a file changes nothing but the public directory. -/
theorem refilled_loadFile {world : World} (h : Tidy store world.tree) (memory : Memory)
    {fid : Bytes} (hfid : HexId fid) :
    Refilled store.pubDir world ((store.loadFile memory fid).run world).state := by
  have hlength := four_le_of_hexId hfid
  obtain ⟨opened, hopened⟩ := h.exists_opened hfid
  cases hheader : world.tree.resolve (store.fileAt fid) with
  | none =>
      obtain ⟨last, hlast, htree⟩ := run_loadFile_closed memory hlength (Or.inl hheader)
      rw [hlast]
      exact .of_tree_eq htree
  | some header =>
      obtain ⟨started, hstarted, hrun⟩ := run_loadFile_opened memory hlength hheader hopened
      have hpublish : Refilled store.pubDir started ((store.publish memory (store.pubAt fid)
          (store.pubFile fid) (opened.content header)).run started).state :=
        preserves_publish (fun _ _ => .of_tree_eq)
          (Refilled.writeAt (store.below_pubFile fid)) _ _ started
      have hstate : ((store.loadFile memory fid).run world).state =
          ((store.publish memory (store.pubAt fid) (store.pubFile fid)
            (opened.content header)).run started).state := by
        rw [hrun]
        generalize (store.publish memory (store.pubAt fid) (store.pubFile fid)
          (opened.content header)).run started = result
        cases result with
        | ok answer last => rfl
        | error fault last => cases fault <;> rfl
      rw [hstate]
      exact IsTrans.trans _ _ _
        (refilled_opened hopened (store.below_pubFile fid) hstarted) hpublish

/-- So does removing the file of a cache entry. -/
theorem refilled_destroy {world : World} (h : Tidy store world.tree) {fid : Bytes}
    (hfid : HexId fid) {file : PublicFile}
    (hfile : file = ⟨some (store.pubFile fid), true⟩ ∨ file = ⟨none, false⟩) :
    Refilled store.pubDir world ((destroy file).run world).state := by
  rcases hfile with rfl | rfl
  · have hremove : Refilled store.pubDir world
        ((remove (store.pubFile fid) : Storage Bool).run world).state :=
      Refilled.remove h.links (validPath_pubFile hfid).plain (store.below_pubFile fid)
    simp only [destroy, run_bind]
    generalize (remove (store.pubFile fid) : Storage Bool).run world = result at hremove ⊢
    cases result with
    | ok removed last => exact hremove
    | error fault last => exact hremove
  · exact refl_of _ _

/-- So does getting a file. -/
theorem refilled_getFile {world : World} (h : Tidy store world.tree) (memory : Memory)
    {cache : FileCache} {fid : Bytes} (hfid : HexId fid)
    (hcache : ∀ id file, (id, file) ∈ cache → HexId id ∧
      (file = ⟨some (store.pubFile id), true⟩ ∨ file = ⟨none, false⟩)) :
    Refilled store.pubDir world ((store.getFile memory cache fid).run world).state := by
  have hcached : Refilled store.pubDir world ((store.cached memory cache fid).run world).state := by
    cases hlookup : cache.lookup fid with
    | some file =>
        rw [run_cached_hit hlookup]
        exact refl_of _ _
    | none =>
        have hload := refilled_loadFile h memory hfid
        simp only [cached, hlookup, run_bind]
        generalize (store.loadFile memory fid).run world = result at hload ⊢
        cases result with
        | error fault last => exact hload
        | ok file loaded =>
            cases cache with
            | nil => exact hload
            | cons first rest =>
                obtain ⟨old, oldest⟩ := first
                obtain ⟨hold, hentry⟩ := hcache old oldest List.mem_cons_self
                have hdestroy : Refilled store.pubDir loaded
                    ((destroy oldest).run loaded).state :=
                  refilled_destroy (h.of_refilled hload) hold hentry
                simp only [run_ite, run_bind]
                split
                · refine IsTrans.trans _ _ _ hload ?_
                  rw [Result.state_ok]
                  generalize (destroy oldest).run loaded = final at hdestroy ⊢
                  cases final with
                  | ok _ last => exact hdestroy
                  | error fault last => exact hdestroy
                · exact hload
  rw [run_getFile_eq]
  generalize (store.cached memory cache fid).run world = result at hcached ⊢
  cases result with
  | ok answer last =>
      obtain ⟨file, after⟩ := answer
      exact hcached
  | error fault last => exact hcached

/-! ## Two loads -/

/-- The public file holds a text, and outside the public directory the tree is the given one. -/
structure Filling (store : Blockstore) (tree : FileTree) (fid text : Bytes) (after : FileTree) :
    Prop where
  outer : after.outer store.pubDir = tree.outer store.pubDir
  links : after.NoLinks
  written : after.get (store.pubFile fid) = some (.file text)

/-- Two loads have written the same text so far. -/
def Copying (store : Blockstore) (one two : FileTree) (fid : Bytes) (left right : World) : Prop :=
  ∃ text, Filling store one fid text left.tree ∧ Filling store two fid text right.tree

section Copying

variable {one two : FileTree} {fid : Bytes}

/-- Writing to the public file. -/
theorem Filling.write {tree after : FileTree} {text : Bytes} (h : Filling store tree fid text after)
    (position : Nat) (bytes : Bytes) :
    Filling store tree fid (overlay text position bytes) (after.write (store.pubFile fid)
      (overlay ((after.content (store.pubFile fid)).getD []) position bytes)) := by
  have hcontent : after.content (store.pubFile fid) = some text := by
    rw [FileTree.content, h.written]
  refine ⟨?_, h.links.write _ _, ?_⟩
  · rw [FileTree.outer_write_below _ (store.below_pubFile fid), h.outer]
  · rw [FileTree.get_write, if_pos rfl, h.written, hcontent]
    rfl

/-- Both loads write the same bytes. -/
theorem twin_writePublic (position : Nat) (bytes : Bytes) :
    Twin (Copying store one two fid) Eq (writeAt (store.pubFile fid) position bytes : Storage Unit)
      (writeAt (store.pubFile fid) position bytes) := by
  intro left right h
  obtain ⟨text, hleft, hright⟩ := h
  exact .ok rfl ⟨_, hleft.write position bytes, hright.write position bytes⟩

/-- Both loads open what leads to the same bytes. -/
theorem twin_openSource (hone : one.NoLinks) (htwo : two.NoLinks) {path : FilePath}
    (hpath : Avoids store.pubDir path) (hseen : one.seen path = two.seen path) :
    Twin (Copying store one two fid)
      (fun file other => file = other ∧ one.resolve path = file)
      (openIn path : Storage (Option FilePath)) (openIn path) := by
  intro left right h
  obtain ⟨text, hleft, hright⟩ := h
  have hresolve := FileTree.resolve_of_seen hone htwo hseen
  have hl : left.tree.resolve path = one.resolve path :=
    FileTree.resolve_of_outer hleft.outer hone hpath
  have hr : right.tree.resolve path = two.resolve path :=
    FileTree.resolve_of_outer hright.outer htwo hpath
  exact .ok ⟨by rw [hl, hr, hresolve], hl.symm⟩ ⟨text, hleft, hright⟩

/-- Both loads read the same bytes there, which are not those of the public file. -/
theorem twin_readSource (hone : one.NoLinks) (htwo : two.NoLinks) {path file : FilePath}
    (hpath : Avoids store.pubDir path) (hseen : one.seen path = two.seen path)
    (hfile : one.resolve path = some file) (stream other : OutStream) (failed : Bool) :
    Twin (Copying store one two fid) Eq (readBlock (store.pubFile fid) file stream failed)
      (readBlock (store.pubFile fid) file other failed) := by
  intro left right h
  obtain ⟨text, hleft, hright⟩ := h
  have hout : ¬ Below store.pubDir file := fun hbelow => by
    rw [FileTree.resolve_of_noLinks hone hfile] at hbelow
    exact hpath.last hbelow.1
  have hne : file ≠ store.pubFile fid := fun heq => hout (heq ▸ store.below_pubFile fid)
  have hcontent := FileTree.content_of_seen hone htwo hseen hfile
  have heq : left.tree.content file = right.tree.content file := by
    rw [FileTree.content, FileTree.get_of_outer hleft.outer hout]
    refine hcontent.trans ?_
    rw [FileTree.content, FileTree.content, FileTree.get_of_outer hright.outer hout]
  rw [run_readBlock, run_readBlock, blockBytes_of_ne hne, blockBytes_of_ne hne, heq]
  exact .ok rfl ⟨text, hleft, hright⟩

/-- The loop of `load_file` over block ids that lead to the same bytes. When the streams write past
their buffers does not matter. -/
theorem twin_copyBlocks (hone : one.NoLinks) (htwo : two.NoLinks) {ids : List Bytes}
    (hids : ∀ bid ∈ ids, 4 ≤ bid.length)
    (hread : ∀ bid ∈ store.idsRead one ids, Avoids store.pubDir (store.fileAt bid) ∧
      one.seen (store.fileAt bid) = two.seen (store.fileAt bid)) (direct before : Nat)
    (stream other : OutStream) (hlength : stream.length = other.length) (failed : Bool) :
    Twin (Copying store one two fid) Eq
      (store.copyBlocks direct (store.pubFile fid) ids stream failed)
      (store.copyBlocks before (store.pubFile fid) ids other failed) := by
  induction ids generalizing stream other failed with
  | nil => exact Twin.pure rfl
  | cons bid ids ih =>
      refine twin_pathText (hids bid List.mem_cons_self) ?_
      refine Twin.ite (fun _ => Twin.throw _) fun hzero => ?_
      rw [idsRead, if_neg hzero] at hread
      obtain ⟨hpath, hseen⟩ := hread bid List.mem_cons_self
      refine Twin.bind (twin_openSource hone htwo hpath hseen) fun file found hopened => ?_
      obtain ⟨rfl, hfile⟩ := hopened
      cases file with
      | none => exact Twin.pure rfl
      | some file =>
          have hfile : one.resolve (store.fileAt bid) = some file := hfile
          have hrest := ih (fun other hother => hids other (List.mem_cons_of_mem _ hother))
            fun other hother => hread other (by
              rw [hfile, Option.isSome_some, if_pos rfl]
              exact List.mem_cons_of_mem _ hother)
          refine Twin.bind_eq (twin_readSource hone htwo hpath hseen hfile _ _ _) fun bytes => ?_
          refine Twin.ite (fun _ => hrest _ _ hlength _) fun _ => ?_
          rw [hlength]
          refine Twin.bind_eq (twin_writePublic _ _) fun _ => hrest _ _ ?_ _
          rw [OutStream.length_insert, OutStream.length_insert, hlength]

/-- A header that is too short for its length lists nothing, and otherwise the length does not
depend on the memory. -/
theorem wholePieces_eq_listed {text : Bytes}
    (hbig : ¬ headerSize memory (some text) ≤ store.blocksize - 4) :
    wholePieces hashSize (text.drop 4) = store.listed text := by
  by_cases hlength : 4 ≤ text.length
  · have hsize : headerSize memory (some text) = uintValue (text.take 4) := by
      rw [headerSize, Option.getD_some, List.take_left' (by simp [hlength])]
    rw [listed, if_pos (by rw [← hsize]; exact not_le.mp hbig)]
  · have hnone : wholePieces hashSize (text.drop 4) = [] := by
      rw [List.drop_eq_nil_of_le (not_le.mp hlength).le]
      rfl
    rw [listed, hnone, ite_self]

/-- The memory with other streams. -/
def withStreams (memory other : Memory) : Memory :=
  { memory with direct := other.direct, direct_gt := other.direct_gt }

/-- Once the two files are open. -/
theorem twin_publish (hone : one.NoLinks) (htwo : two.NoLinks) (memory other : Memory)
    (path : FilePath) (header : Option Bytes)
    (hread : ∀ text, header = some text → ∀ bid ∈ store.idsRead one (store.listed text),
      Avoids store.pubDir (store.fileAt bid) ∧
        one.seen (store.fileAt bid) = two.seen (store.fileAt bid)) :
    Twin (Copying store one two fid) Eq (store.publish memory path (store.pubFile fid) header)
      (store.publish (withStreams memory other) path (store.pubFile fid) header) := by
  refine Twin.ite (fun _ => ?_) fun hbig => ?_
  · exact Twin.bind_eq (twin_writePublic _ _) fun _ => Twin.pure rfl
  · cases header with
    | none => exact Twin.ite (fun _ => Twin.throw _) fun hsome => absurd rfl hsome
    | some text =>
        have hlisted : wholePieces hashSize (text.drop 4) = store.listed text :=
          wholePieces_eq_listed hbig
        have hids : ∀ bid ∈ wholePieces hashSize (text.drop 4), 4 ≤ bid.length := fun bid hbid => by
          rw [length_of_mem_wholePieces hbid]
          decide
        refine Twin.ite (fun _ => Twin.throw _) fun _ => ?_
        refine Twin.bind_eq (twin_copyBlocks hone htwo hids ?_ _ _ _ _ rfl false) fun all => ?_
        · rw [hlisted]
          exact hread text rfl
        · exact Twin.ite (fun _ => Twin.pure rfl) fun _ => Twin.pure rfl

end Copying

/-- What is made of a complete header does not depend on the memory. -/
theorem publish_of_complete {text : Bytes} (h : store.Complete text) (memory other : Memory)
    (path out : FilePath) :
    store.publish other path out (some text) =
      store.publish (withStreams memory other) path out (some text) := by
  have hsize : ∀ rest : Bytes, (text.take 4 ++ rest).take 4 = text.take 4 := fun rest =>
    List.take_left' (by simp [h.1])
  simp only [publish, Option.getD_some, hsize]
  by_cases hsmall : uintValue (text.take 4) ≤ store.blocksize - 4
  · have hbytes : ((text.drop 4).take (uintValue (text.take 4))).length =
        uintValue (text.take 4) := by
      have := h.2 hsmall
      rw [List.length_take, List.length_drop]
      omega
    rw [if_pos hsmall, if_pos hsmall, List.take_left' hbytes, List.take_left' hbytes]
  · rw [if_neg hsmall, if_neg hsmall]
    rfl

/-- A load starts with an empty public file. -/
theorem Filling.of_opened {tree opened : FileTree} {fid : Bytes} (h : Tidy store tree)
    (hopened : tree.opened (store.pubAt fid) = some (opened, store.pubFile fid)) :
    Filling store tree fid [] opened := by
  have hrefilled : Refilled store.pubDir ⟨tree, []⟩ ⟨opened, []⟩ :=
    refilled_opened hopened (store.below_pubFile fid) rfl
  refine ⟨hrefilled.outer, hrefilled.noLinks h.links, ?_⟩
  rw [(FileTree.opened_eq_some hopened).2, if_pos rfl]

/-- Afterwards both public files hold the same bytes. -/
theorem alike_read {one two : FileTree} {fid : Bytes} {left right : World}
    (h : Copying store one two fid left right) (file : PublicFile) :
    Result.Alike (fun _ _ => True) Eq
      ((do return (file, ← readAll (store.pubFile fid)) :
        Storage (PublicFile × Option Bytes)).run left)
      ((do return (file, ← readAll (store.pubFile fid)) :
        Storage (PublicFile × Option Bytes)).run right) := by
  obtain ⟨text, hleft, hright⟩ := h
  have heq : left.tree.content (store.pubFile fid) = right.tree.content (store.pubFile fid) := by
    rw [FileTree.content, FileTree.content, hleft.written, hright.written]
  simp only [run_bind, run_readAll, heq]
  exact .ok rfl trivial

/-- Two loads from the same source end alike and publish the same bytes, if they find the same
memory or do not need it. -/
theorem alike_fetch {one two : World} (hone : Tidy store one.tree) (htwo : Tidy store two.tree)
    {fid : Bytes} (hfid : HexId fid) (hsource : SameSource store fid one.tree two.tree)
    {memory other : Memory}
    (hmemory : memory = other ∨
      ∃ text, one.tree.seen (store.fileAt fid) = some (some text) ∧ store.Complete text) :
    Result.Alike (fun _ _ => True) Eq ((store.fetch memory fid).run one)
      ((store.fetch other fid).run two) := by
  have hlength := four_le_of_hexId hfid
  have hpath := store.avoids_fileAt hfid
  obtain ⟨openedOne, hopenedOne⟩ := hone.exists_opened hfid
  obtain ⟨openedTwo, hopenedTwo⟩ := htwo.exists_opened hfid
  have hresolve := FileTree.resolve_of_seen hone.links htwo.links hsource.header
  cases hfileOne : one.tree.resolve (store.fileAt fid) with
  | none =>
      have hfileTwo : two.tree.resolve (store.fileAt fid) = none := by rw [← hresolve, hfileOne]
      obtain ⟨lastOne, hlastOne, -⟩ := run_loadFile_closed memory hlength (Or.inl hfileOne)
      obtain ⟨lastTwo, hlastTwo, -⟩ := run_loadFile_closed other hlength (Or.inl hfileTwo)
      rw [fetch, fetch, run_bind, run_bind, hlastOne, hlastTwo]
      exact .error trivial
  | some file =>
      have hfileTwo : two.tree.resolve (store.fileAt fid) = some file := by
        rw [← hresolve, hfileOne]
      have hcontent := FileTree.content_of_seen hone.links htwo.links hsource.header hfileOne
      obtain ⟨startedOne, rfl, hrunOne⟩ :=
        run_loadFile_opened memory hlength hfileOne hopenedOne
      obtain ⟨startedTwo, rfl, hrunTwo⟩ :=
        run_loadFile_opened other hlength hfileTwo hopenedTwo
      have hne : file ≠ store.pubFile fid := by
        intro heq
        have hlast := hpath.last
        rw [← FileTree.resolve_of_noLinks hone.links hfileOne, heq] at hlast
        exact hlast (store.below_pubFile fid).1
      have hheaderOne : startedOne.tree.content file = one.tree.content file := by
        rw [FileTree.content, (FileTree.opened_eq_some hopenedOne).2, if_neg hne]
        rfl
      have hheaderTwo : startedTwo.tree.content file = one.tree.content file := by
        rw [hcontent, FileTree.content, (FileTree.opened_eq_some hopenedTwo).2, if_neg hne]
        rfl
      have hprogram : store.publish other (store.pubAt fid) (store.pubFile fid)
          (startedTwo.tree.content file) = store.publish (withStreams memory other)
          (store.pubAt fid) (store.pubFile fid) (startedOne.tree.content file) := by
        rw [hheaderOne, hheaderTwo]
        rcases hmemory with rfl | ⟨text, hseen, hcomplete⟩
        · rfl
        · rw [FileTree.seen, hfileOne, Option.map_some, Option.some.injEq] at hseen
          rw [hseen, publish_of_complete hcomplete memory other]
      have htwin : Twin (Copying store one.tree two.tree fid) Eq
          (store.publish memory (store.pubAt fid) (store.pubFile fid)
            (startedOne.tree.content file))
          (store.publish (withStreams memory other) (store.pubAt fid) (store.pubFile fid)
            (startedOne.tree.content file)) := by
        refine twin_publish hone.links htwo.links _ _ _ _ fun text htext bid hbid => ?_
        have hids : bid ∈ store.blocksRead one.tree fid := by
          have hseen : one.tree.seen (store.fileAt fid) = some (some text) := by
            rw [FileTree.seen, hfileOne, Option.map_some, ← hheaderOne, htext]
          rw [blocksRead, hseen]
          exact hbid
        exact ⟨hsource.apart bid hids, hsource.blocks bid hids⟩
      have hpublished := htwin startedOne startedTwo
        ⟨[], Filling.of_opened hone hopenedOne, Filling.of_opened htwo hopenedTwo⟩
      rw [fetch, fetch, run_bind, run_bind, hrunOne, hrunTwo, hprogram]
      generalize (store.publish memory (store.pubAt fid) (store.pubFile fid)
        (startedOne.tree.content file)).run startedOne = left at hpublished ⊢
      generalize (store.publish (withStreams memory other) (store.pubAt fid) (store.pubFile fid)
        (startedOne.tree.content file)).run startedTwo = right at hpublished ⊢
      cases hpublished with
      | ok hvalues hstates =>
          subst hvalues
          exact alike_read hstates _
      | @error fault _ _ hstates =>
          cases fault with
          | filesystemError => exact alike_read hstates _
          | fileNotFound | outOfRange | runtimeError | message | undefined => exact .error trivial

end Blockstore

end AnarchNet
