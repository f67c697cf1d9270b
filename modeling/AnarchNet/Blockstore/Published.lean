import AnarchNet.Blockstore.Confinement

/-!
# How much `load_file` publishes

The loop of `load_file` copies what the block files hold, whatever that is, and compares nothing
with the length in the header. The results hold for every header, every set of block files and
every id. A link in the unique directory may even lead back to the public file: it has no bytes as
long as those copied so far wait in the stream, and after that the loop never comes to its end.
-/

namespace AnarchNet

open FileSystem EStateM

namespace Blockstore

variable {store : Blockstore} {memory : Memory}

/-- What is in the public file after the blocks were copied to it behind a text, up to the first
without bytes. Nothing is, if the end of a block is never read. -/
def copied (store : Blockstore) (direct : Nat) (tree : FileTree) (out : FilePath) :
    List Bytes → OutStream → Bool → Bytes → Option Bytes
  | [], _, _, text => some text
  | bid :: rest, stream, failed, text =>
      match tree.resolve (store.fileAt bid) with
      | none => some text
      | some file =>
          match blockBytes tree out file stream failed with
          | none => none
          | some bytes =>
              copied store direct tree out rest (stream.insert direct bytes) (bytes = [])
                (text ++ bytes)

/-- Every block can be opened. -/
def Readable (store : Blockstore) (tree : FileTree) (ids : List Bytes) : Prop :=
  ∀ bid ∈ ids, (0 : UInt8) ∉ bid ∧ (tree.resolve (store.fileAt bid)).isSome

/-- The tree is another one in which only the public file was written. -/
structure Writing (tree : FileTree) (out : FilePath) (text : Bytes) (after : FileTree) : Prop where
  resolve : ∀ path, after.resolve path = tree.resolve path
  other : ∀ file, file ≠ out → after.get file = tree.get file
  written : after.get out = some (.file text)

namespace Writing

variable {tree after : FileTree} {out : FilePath} {text : Bytes}

/-- Reading a block gives the same bytes. -/
theorem blockBytes_eq (h : Writing tree out text after) (file : FilePath) (stream : OutStream)
    (failed : Bool) :
    blockBytes after out file stream failed = blockBytes tree out file stream failed := by
  by_cases hout : file = out
  · simp [blockBytes, hout]
  · rw [blockBytes_of_ne hout, blockBytes_of_ne hout, FileTree.content, h.other file hout,
      FileTree.content]

/-- Writing at the end. -/
theorem append (h : Writing tree out text after) (bytes : Bytes) :
    Writing tree out (text ++ bytes)
      (after.write out (overlay ((after.content out).getD []) text.length bytes)) := by
  have hcontent : after.content out = some text := by rw [FileTree.content, h.written]
  rw [hcontent, Option.getD_some, overlay_length]
  refine ⟨fun path => by rw [FileTree.resolve_write, h.resolve], fun file hfile => ?_, ?_⟩
  · rw [FileTree.get_write, if_neg hfile, h.other file hfile]
  · rw [FileTree.get_write, if_pos rfl, h.written]
    rfl

end Writing

variable {direct : Nat} {tree : FileTree} {out : FilePath} {bid text : Bytes} {stream : OutStream}
  {failed : Bool} {world : World}

/-- One round of the loop of `load_file` on a block whose end is read. -/
theorem run_copyBlocks_cons {file : FilePath} (hbid : 4 ≤ bid.length) (hzero : (0 : UInt8) ∉ bid)
    (hfile : tree.resolve (store.fileAt bid) = some file) (h : Writing tree out text world.tree)
    (hstream : stream.length = text.length) (ids : List Bytes) {bytes : Bytes}
    (hbytes : blockBytes tree out file stream failed = some bytes) :
    ∃ after, Writing tree out (text ++ bytes) after.tree ∧
      (store.copyBlocks direct out (bid :: ids) stream failed).run world =
        (store.copyBlocks direct out ids (stream.insert direct bytes) (bytes = [])).run after := by
  obtain ⟨logged, htree, hstep⟩ : ∃ logged : World, logged.tree = world.tree ∧
      (store.copyBlocks direct out (bid :: ids) stream failed).run world = _ :=
    run_copyBlocks_block hbid hzero ((h.resolve _).trans hfile) ids stream failed
  rw [h.blockBytes_eq, hbytes] at hstep
  rw [hstep]
  rw [← htree] at h
  by_cases hnil : bytes = []
  · subst hnil
    exact ⟨logged, by rwa [List.append_nil], rfl⟩
  · refine ⟨{ logged with tree := _ }, h.append bytes, ?_⟩
    simp only [if_neg hnil, decide_eq_false hnil, hstream]
    rfl

/-- The loop of `load_file` does not come back from a block whose end is never read. -/
theorem run_copyBlocks_endless {file : FilePath} (hbid : 4 ≤ bid.length)
    (hzero : (0 : UInt8) ∉ bid) (hfile : tree.resolve (store.fileAt bid) = some file)
    (h : Writing tree out text world.tree) (ids : List Bytes)
    (hbytes : blockBytes tree out file stream failed = none) :
    ∃ last, (store.copyBlocks direct out (bid :: ids) stream failed).run world =
      .error .undefined last := by
  obtain ⟨logged, -, hstep⟩ : ∃ logged : World, logged.tree = world.tree ∧
      (store.copyBlocks direct out (bid :: ids) stream failed).run world = _ :=
    run_copyBlocks_block hbid hzero ((h.resolve _).trans hfile) ids stream failed
  rw [h.blockBytes_eq, hbytes] at hstep
  exact ⟨logged, hstep⟩

/-- If all blocks can be opened, the loop of `load_file` copies them up to the first without
bytes. -/
theorem run_copyBlocks_readable {ids : List Bytes} (hids : ∀ bid ∈ ids, 4 ≤ bid.length)
    (h : Writing tree out text world.tree) (hstream : stream.length = text.length)
    (hread : Readable store tree ids) {bytes : Bytes}
    (hcopied : store.copied direct tree out ids stream failed text = some bytes) :
    ∃ after, (store.copyBlocks direct out ids stream failed).run world = .ok true after ∧
      Writing tree out bytes after.tree := by
  induction ids generalizing world text stream failed with
  | nil =>
      obtain rfl : text = bytes := Option.some.inj hcopied
      exact ⟨world, rfl, h⟩
  | cons bid ids ih =>
      obtain ⟨hzero, hsome⟩ := hread bid List.mem_cons_self
      obtain ⟨file, hfile⟩ := Option.isSome_iff_exists.mp hsome
      rw [copied, hfile] at hcopied
      cases hblock : blockBytes tree out file stream failed with
      | none => simp [hblock] at hcopied
      | some block =>
          simp only [hblock] at hcopied
          obtain ⟨middle, hmiddle, hrun⟩ : ∃ middle : World,
              Writing tree out (text ++ block) middle.tree ∧
              (store.copyBlocks direct out (bid :: ids) stream failed).run world = _ :=
            run_copyBlocks_cons (hids bid List.mem_cons_self) hzero hfile h hstream ids hblock
          have hlonger : (stream.insert direct block).length = (text ++ block).length := by
            rw [OutStream.length_insert, hstream, List.length_append]
          obtain ⟨after, hafter, hlast⟩ := ih (fun other hother => hids other (by simp [hother]))
            hmiddle hlonger (fun other hother => hread other (by simp [hother])) hcopied
          exact ⟨after, hrun.trans hafter, hlast⟩

/-- If the loop of `load_file` returns true, all blocks can be opened, and it came to the end of
each. -/
theorem readable_of_copyBlocks {ids : List Bytes} (hids : ∀ bid ∈ ids, 4 ≤ bid.length)
    {after : World} (h : Writing tree out text world.tree) (hstream : stream.length = text.length)
    (hrun : (store.copyBlocks direct out ids stream failed).run world = .ok true after) :
    Readable store tree ids ∧
      ∃ bytes, store.copied direct tree out ids stream failed text = some bytes := by
  induction ids generalizing world text stream failed with
  | nil => exact ⟨by simp [Readable], text, rfl⟩
  | cons bid ids ih =>
      have hbid := hids bid List.mem_cons_self
      by_cases hzero : (0 : UInt8) ∈ bid
      · simp [copyBlocks, run_bind, run_pathText_of_le hbid, hzero] at hrun
      cases hfile : tree.resolve (store.fileAt bid) with
      | none =>
          have hresolve : world.tree.resolve (store.uniqueDir ++ components (shardText bid)) = none :=
            (h.resolve _).trans hfile
          simp [copyBlocks, run_bind, run_pathText_of_le hbid, hzero, hresolve] at hrun
      | some file =>
          cases hblock : blockBytes tree out file stream failed with
          | none =>
              obtain ⟨last, hlast⟩ : ∃ last, (store.copyBlocks direct out (bid :: ids) stream
                  failed).run world = .error .undefined last :=
                run_copyBlocks_endless hbid hzero hfile h ids hblock
              simp [hlast] at hrun
          | some block =>
              obtain ⟨middle, hmiddle, hrest⟩ : ∃ middle : World,
                  Writing tree out (text ++ block) middle.tree ∧
                    (store.copyBlocks direct out (bid :: ids) stream failed).run world = _ :=
                run_copyBlocks_cons hbid hzero hfile h hstream ids hblock
              have hlonger : (stream.insert direct block).length = (text ++ block).length := by
                rw [OutStream.length_insert, hstream, List.length_append]
              obtain ⟨hlater, bytes, hbytes⟩ := ih (fun other hother => hids other (by simp [hother]))
                hmiddle hlonger (hrest.symm.trans hrun)
              refine ⟨fun other hother => ?_, bytes, ?_⟩
              · rcases List.mem_cons.mp hother with rfl | hother
                · exact ⟨hzero, by rw [hfile]; rfl⟩
                · exact hlater other hother
              · simp only [copied, hfile, hblock, hbytes]

section Calls

variable {world : World}

/-- `load_file` once its two files are open. -/
theorem run_loadFile_opened (memory : Memory) {fid : Bytes} (hfid : 4 ≤ fid.length) {file out : FilePath}
    {opened : FileTree} (hfile : world.tree.resolve (store.fileAt fid) = some file)
    (hopened : world.tree.opened (store.pubAt fid) = some (opened, out)) :
    ∃ started : World, started.tree = opened ∧ (store.loadFile memory fid).run world =
      match (store.publish memory (store.pubAt fid) out (opened.content file)).run started with
      | .ok answer last => .ok answer last
      | .error .filesystemError last => .ok ⟨none, false⟩ last
      | .error other last => .error other last := by
  have hpath : store.uniqueDir ++ components (shardText fid) = store.fileAt fid := rfl
  have hpub : store.pubDir ++ components fid = store.pubAt fid := rfl
  refine ⟨{ tree := opened, log := world.log ++ [store.fileAt fid] ++ [store.pubAt fid] }, rfl, ?_⟩
  simp only [loadFile, run_tryCatch_eq, run_bind, run_pathText_of_le hfid, hpath, run_openIn, hfile,
    hpub, run_openOut_eq, hopened, run_readAll]
  generalize hresult : (store.publish memory (store.pubAt fid) out (opened.content file)).run
    { tree := opened, log := world.log ++ [store.fileAt fid] ++ [store.pubAt fid] } = result
  cases result with
  | ok answer last => rfl
  | error fault last => cases fault <;> rfl

/-- `load_file` throws when there is no header or the public file cannot be opened. -/
theorem run_loadFile_closed (memory : Memory) {fid : Bytes} (hfid : 4 ≤ fid.length)
    (h : world.tree.resolve (store.fileAt fid) = none ∨
      world.tree.opened (store.pubAt fid) = none) :
    ∃ last, (store.loadFile memory fid).run world = .error .fileNotFound last ∧
      last.tree = world.tree := by
  have hpath : store.uniqueDir ++ components (shardText fid) = store.fileAt fid := rfl
  have hpub : store.pubDir ++ components fid = store.pubAt fid := rfl
  simp only [loadFile, run_tryCatch_eq, run_bind, run_pathText_of_le hfid, hpath, run_openIn, hpub]
  cases hheader : world.tree.resolve (store.fileAt fid) with
  | none => exact ⟨_, rfl, rfl⟩
  | some header =>
      have hnone : world.tree.opened (store.pubAt fid) = none := by simpa [hheader] using h
      simp only [run_bind, run_openOut_eq, hnone]
      exact ⟨_, rfl, rfl⟩

/-- `load_file` throws for an id that is too short for a path. -/
theorem run_loadFile_short (memory : Memory) {fid : Bytes} (hfid : ¬ 4 ≤ fid.length)
    (world : World) : (store.loadFile memory fid).run world = .error .outOfRange world := by
  simp only [loadFile, run_tryCatch_eq, run_bind, run_pathText_short hfid, run_throw_eq]

/-- A file that was loaded well had a header and a public file. -/
theorem opened_of_loadFile {fid : Bytes} {last : World} {file : PublicFile}
    (hrun : (store.loadFile memory fid).run world = .ok file last) :
    4 ≤ fid.length ∧ ∃ header opened out,
      world.tree.resolve (store.fileAt fid) = some header ∧
        world.tree.opened (store.pubAt fid) = some (opened, out) := by
  by_cases hfid : 4 ≤ fid.length
  · refine ⟨hfid, ?_⟩
    cases hheader : world.tree.resolve (store.fileAt fid) with
    | none =>
        obtain ⟨last, hlast, -⟩ := run_loadFile_closed memory hfid (Or.inl hheader)
        simp [hlast] at hrun
    | some header =>
        cases hopened : world.tree.opened (store.pubAt fid) with
        | none =>
            obtain ⟨last, hlast, -⟩ := run_loadFile_closed memory hfid (Or.inr hopened)
            simp [hlast] at hrun
        | some opened => exact ⟨header, opened.1, opened.2, rfl, rfl⟩
  · rw [run_loadFile_short memory hfid] at hrun
    cases hrun

/-- A size that leaves room for it in a block: that many bytes are published. -/
theorem run_publish_small {tree : FileTree} (path : FilePath) {out : FilePath}
    {header : Option Bytes}
    (hbuffer : store.blocksize ≤ memory.buffer.length) (h : Writing tree out [] world.tree)
    (hsmall : headerSize memory header ≤ store.blocksize - 4) :
    ∃ bytes last, (store.publish memory path out header).run world = .ok ⟨some path, true⟩ last ∧
      Writing tree out bytes last.tree ∧ bytes.length = headerSize memory header := by
  obtain ⟨size, hsize⟩ : ∃ size, headerSize memory header = size := ⟨_, rfl⟩
  obtain ⟨front, hfront⟩ : ∃ front, ((header.getD []).drop 4).take size = front := ⟨_, rfl⟩
  have hvalue : uintValue (((header.getD []).take 4 ++
      memory.integer.drop (header.getD []).length).take 4) = size := hsize
  rw [hsize] at hsmall
  have hwriting := h.append ((front ++ memory.buffer.drop front.length).take size)
  rw [List.nil_append, List.length_nil] at hwriting
  refine ⟨(front ++ memory.buffer.drop front.length).take size, { world with tree := _ }, ?_,
    hwriting, ?_⟩
  · simp only [publish, hvalue, if_pos hsmall, hfront]
    rfl
  · rw [hsize, List.length_take, List.length_append, List.length_drop]
    omega

/-- Nothing is published when nothing can be read and the size leaves no room for it in a block. -/
theorem run_publish_none (path out : FilePath)
    (hbig : store.blocksize - 4 < headerSize memory none) :
    (store.publish memory path out none).run world = .error .fileNotFound world := by
  have hvalue : ¬ uintValue (((none : Option Bytes).getD []).take 4 ++
      memory.integer.drop ((none : Option Bytes).getD []).length |>.take 4) ≤
        store.blocksize - 4 := not_le.mpr hbig
  simp only [publish, if_neg hvalue, Option.isNone_none, if_true, run_throw_eq]

/-- A size that leaves no room for it in a block: the blocks are published if they can all be
opened and read. -/
theorem run_publish_blocks {tree : FileTree} (path : FilePath) {out : FilePath} {text : Bytes}
    (h : Writing tree out [] world.tree)
    (hbig : store.blocksize - 4 < headerSize memory (some text)) :
    (Readable store tree (wholePieces hashSize (text.drop 4)) → ∀ bytes,
      store.copied memory.direct tree out (wholePieces hashSize (text.drop 4)) .opened false [] =
          some bytes → ∃ last,
        (store.publish memory path out (some text)).run world = .ok ⟨some path, true⟩ last ∧
          Writing tree out bytes last.tree) ∧
    ∀ file last, (store.publish memory path out (some text)).run world = .ok file last →
      file.good = true → Readable store tree (wholePieces hashSize (text.drop 4)) ∧ ∃ bytes,
        store.copied memory.direct tree out (wholePieces hashSize (text.drop 4)) .opened false [] =
          some bytes := by
  have hids : ∀ bid ∈ wholePieces hashSize (text.drop 4), 4 ≤ bid.length := fun bid hbid => by
    rw [length_of_mem_wholePieces hbid]
    decide
  have hvalue : ¬ uintValue ((text.take 4 ++ memory.integer.drop text.length).take 4) ≤
      store.blocksize - 4 := not_le.mpr hbig
  have hpublish : store.publish memory path out (some text) = do
      let all ← store.copyBlocks memory.direct out (wholePieces hashSize (text.drop 4)) .opened false
      if all then return ⟨some path, true⟩ else return ⟨none, false⟩ := by
    simp only [publish, Option.getD_some, if_neg hvalue, Option.isNone_some, Bool.false_eq_true,
      if_false]
  constructor
  · intro hread bytes hcopied
    obtain ⟨last, hlast, hwriting⟩ := run_copyBlocks_readable hids h rfl hread hcopied
    rw [hpublish, run_bind, hlast]
    exact ⟨last, rfl, hwriting⟩
  · intro file last hfile hgood
    rw [hpublish, run_bind] at hfile
    cases hcopy : (store.copyBlocks memory.direct out (wholePieces hashSize (text.drop 4))
      .opened false).run world with
    | ok all after =>
        cases all with
        | true => exact readable_of_copyBlocks hids h rfl hcopy
        | false =>
            simp only [hcopy, Bool.false_eq_true, if_false, run_pure, Result.ok.injEq] at hfile
            rw [← hfile.1] at hgood
            cases hgood
    | error fault after => simp [hcopy] at hfile

end Calls

/-- If `load_file` returns a good file, as many bytes were written to it as the header says. -/
def SizesAgree (store : Blockstore) (memory : Memory) (world : World) (fid : Bytes) : Prop :=
  ∀ file last, (store.loadFile memory fid).run world = .ok file last → file.good = true →
    ∃ header opened out bytes, world.tree.resolve (store.fileAt fid) = some header ∧
      world.tree.opened (store.pubAt fid) = some (opened, out) ∧
      (last.tree.resolve (store.pubAt fid)).bind last.tree.content = some bytes ∧
      bytes.length = headerSize memory (opened.content header)

/-- Where the header says that the file does not leave room in a block, all blocks that it lists can
be opened and the end of each is read, the blocks up to the first without bytes have as many as it
says. -/
def BlocksFill (store : Blockstore) (memory : Memory) (world : World) (fid : Bytes) : Prop :=
  ∀ header opened out text, world.tree.resolve (store.fileAt fid) = some header →
    world.tree.opened (store.pubAt fid) = some (opened, out) →
    opened.content header = some text → store.blocksize - 4 < headerSize memory (some text) →
    Readable store opened (wholePieces hashSize (text.drop 4)) →
    ∀ bytes ∈ store.copied memory.direct opened out (wholePieces hashSize (text.drop 4))
      .opened false [], bytes.length = headerSize memory (some text)

/-- The public file as it was opened. -/
theorem writing_opened {world started : World} {path out : FilePath} {opened : FileTree}
    (h : world.tree.opened path = some (opened, out)) (hstarted : started.tree = opened) :
    Writing opened out [] started.tree := by
  refine ⟨fun path => by rw [hstarted], fun file _ => by rw [hstarted], ?_⟩
  rw [hstarted, (FileTree.opened_eq_some h).2, if_pos rfl]

/-- What was written is what is at the public path. -/
theorem Writing.published {world : World} {path out : FilePath} {opened after : FileTree}
    {bytes : Bytes} (h : Writing opened out bytes after)
    (hopened : world.tree.opened path = some (opened, out)) :
    (after.resolve path).bind after.content = some bytes := by
  rw [h.resolve, (FileTree.opened_eq_some hopened).1, Option.bind_some, FileTree.content,
    h.written]

/-- A file is as long as its header says if its blocks fill it. -/
theorem BlocksFill.sizesAgree {world : World} {fid : Bytes}
    (hbuffer : store.blocksize ≤ memory.buffer.length) (h : BlocksFill store memory world fid) :
    SizesAgree store memory world fid := by
  intro file last hrun hgood
  obtain ⟨hfid, header, opened, out, hheader, hopened⟩ := opened_of_loadFile hrun
  obtain ⟨started, hstarted, hload⟩ := run_loadFile_opened memory hfid hheader hopened
  have hwriting := writing_opened hopened hstarted
  rw [hload] at hrun
  rcases Nat.lt_or_ge (store.blocksize - 4) (headerSize memory (opened.content header)) with
    hbig | hsmall
  · cases htext : opened.content header with
    | none =>
        rw [htext] at hbig hrun
        rw [run_publish_none _ _ hbig] at hrun
        simp at hrun
    | some text =>
        rw [htext] at hbig hrun
        obtain ⟨hall, hread⟩ := run_publish_blocks (store.pubAt fid) hwriting hbig
        cases hpublish : (store.publish memory (store.pubAt fid) out (some text)).run started with
        | ok answer after =>
            rw [hpublish, Result.ok.injEq] at hrun
            obtain ⟨rfl, rfl⟩ := hrun
            obtain ⟨hreadable, bytes, hbytes⟩ := hread answer after hpublish hgood
            obtain ⟨final, hfinal, hwritten⟩ := hall hreadable bytes hbytes
            obtain ⟨-, rfl⟩ := Result.ok.inj (hpublish.symm.trans hfinal)
            exact ⟨header, opened, out, bytes, hheader, hopened, hwritten.published hopened,
              htext ▸ h header opened out text hheader hopened htext hbig hreadable bytes hbytes⟩
        | error fault after =>
            -- the only exception that is caught makes a bad file
            rw [hpublish] at hrun
            cases fault with
            | filesystemError =>
                rw [Result.ok.injEq] at hrun
                rw [← hrun.1] at hgood
                simp at hgood
            | fileNotFound | outOfRange | runtimeError | message | undefined => simp at hrun
  · obtain ⟨bytes, after, hpublish, hwritten, hlength⟩ :=
      run_publish_small (store.pubAt fid) hbuffer hwriting hsmall
    rw [hpublish, Result.ok.injEq] at hrun
    obtain ⟨-, rfl⟩ := hrun
    exact ⟨header, opened, out, bytes, hheader, hopened, hwritten.published hopened, hlength⟩

/-- If a file is as long as its header says, its blocks fill it. -/
theorem SizesAgree.blocksFill {world : World} {fid : Bytes} (hfid : 4 ≤ fid.length)
    (h : SizesAgree store memory world fid) : BlocksFill store memory world fid := by
  intro header opened out text hheader hopened htext hbig hread bytes hcopied
  obtain ⟨started, hstarted, hload⟩ := run_loadFile_opened memory hfid hheader hopened
  have hwriting := writing_opened hopened hstarted
  obtain ⟨last, hlast, hwritten⟩ :=
    (run_publish_blocks (store.pubAt fid) hwriting hbig).1 hread bytes hcopied
  rw [htext, hlast] at hload
  obtain ⟨header', opened', out', found, hheader', hopened', hbytes, hlength⟩ := h _ _ hload rfl
  obtain rfl := Option.some.inj (hheader.symm.trans hheader')
  obtain ⟨rfl, rfl⟩ := Prod.mk.inj (Option.some.inj (hopened.symm.trans hopened'))
  rw [hwritten.published hopened, Option.some.injEq] at hbytes
  rw [hbytes, hlength, htext]

/-- `load_file` reports only files of the right length as good exactly if the blocks fill the
files. A new buffer has the size of a block. -/
theorem published_size_iff (store : Blockstore) (memory : Memory) (world : World) (fid : Bytes)
    (hbuffer : store.blocksize ≤ memory.buffer.length) :
    SizesAgree store memory world fid ↔ (4 ≤ fid.length → BlocksFill store memory world fid) := by
  refine ⟨fun h hfid => h.blocksFill hfid, fun h => ?_⟩
  intro file last hrun
  exact (h (opened_of_loadFile hrun).1).sizesAgree hbuffer file last hrun

/-! ## Files that are found -/

/-- The header that was read makes a good file: the file is small, or its blocks can all be opened
and the end of each is read. -/
def PublishesWell (store : Blockstore) (memory : Memory) (tree : FileTree) (out : FilePath)
    (header : Option Bytes) : Prop :=
  headerSize memory header ≤ store.blocksize - 4 ∨
    ∃ text, header = some text ∧ Readable store tree (wholePieces hashSize (text.drop 4)) ∧
      ∃ bytes, store.copied memory.direct tree out (wholePieces hashSize (text.drop 4)) .opened
        false [] = some bytes

/-- Then the file is published. -/
theorem PublishesWell.run_publish {world : World} {tree : FileTree} {out : FilePath}
    {header : Option Bytes} (h : PublishesWell store memory tree out header)
    (hwriting : Writing tree out [] world.tree) (path : FilePath) :
    ∃ last, (store.publish memory path out header).run world = .ok ⟨some path, true⟩ last := by
  rcases Nat.lt_or_ge (store.blocksize - 4) (headerSize memory header) with hbig | hsmall
  · obtain ⟨text, rfl, hreadable, bytes, hbytes⟩ := h.resolve_left (not_le.2 hbig)
    obtain ⟨last, hlast, -⟩ :=
      (run_publish_blocks path hwriting hbig).1 hreadable bytes hbytes
    exact ⟨last, hlast⟩
  · have hvalue : uintValue (((header.getD []).take 4 ++
        memory.integer.drop (header.getD []).length).take 4) ≤ store.blocksize - 4 := hsmall
    simp only [publish, if_pos hvalue]
    exact ⟨_, rfl⟩

/-- A file that is published is good exactly if the header makes it so. -/
theorem good_publish_iff {world last : World} {tree : FileTree} {path out : FilePath}
    {header : Option Bytes} {file : PublicFile} (h : Writing tree out [] world.tree)
    (hrun : (store.publish memory path out header).run world = .ok file last) :
    file.good = true ↔ PublishesWell store memory tree out header := by
  constructor
  · intro hgood
    rcases Nat.lt_or_ge (store.blocksize - 4) (headerSize memory header) with hbig | hsmall
    · cases header with
      | none =>
          rw [run_publish_none _ _ hbig] at hrun
          cases hrun
      | some text =>
          exact Or.inr ⟨text, rfl, (run_publish_blocks path h hbig).2 file last hrun hgood⟩
    · exact Or.inl hsmall
  · intro hwell
    obtain ⟨final, hfinal⟩ := hwell.run_publish h path
    obtain ⟨rfl, -⟩ := Result.ok.inj (hrun.symm.trans hfinal)
    rfl

/-- A file can be loaded well: its header and its public file can be opened, and the header makes a
good file. -/
def LoadsWell (store : Blockstore) (memory : Memory) (tree : FileTree) (fid : Bytes) : Prop :=
  4 ≤ fid.length ∧ ∃ header opened out, tree.resolve (store.fileAt fid) = some header ∧
    tree.opened (store.pubAt fid) = some (opened, out) ∧
    PublishesWell store memory opened out (opened.content header)

/-- A file that is loaded is good exactly if it can be loaded well. -/
theorem good_loadFile_iff {world last : World} {fid : Bytes} {file : PublicFile}
    (hrun : (store.loadFile memory fid).run world = .ok file last) :
    file.good = true ↔ LoadsWell store memory world.tree fid := by
  obtain ⟨hfid, header, opened, out, hheader, hopened⟩ := opened_of_loadFile hrun
  obtain ⟨started, hstarted, hload⟩ := run_loadFile_opened memory hfid hheader hopened
  have hwriting := writing_opened hopened hstarted
  have hwell : LoadsWell store memory world.tree fid ↔
      PublishesWell store memory opened out (opened.content header) := by
    constructor
    · rintro ⟨-, header', opened', out', hheader', hopened', hpublish⟩
      obtain rfl := Option.some.inj (hheader.symm.trans hheader')
      obtain ⟨rfl, rfl⟩ := Prod.mk.inj (Option.some.inj (hopened.symm.trans hopened'))
      exact hpublish
    · exact fun hpublish => ⟨hfid, header, opened, out, hheader, hopened, hpublish⟩
  rw [hload] at hrun
  cases hpublish : (store.publish memory (store.pubAt fid) out (opened.content header)).run
    started with
  | ok answer after =>
      rw [hpublish, Result.ok.injEq] at hrun
      obtain ⟨rfl, rfl⟩ := hrun
      rw [hwell]
      exact good_publish_iff hwriting hpublish
  | error fault after =>
      -- the only exception that is caught makes a bad file
      rw [hpublish] at hrun
      cases fault with
      | filesystemError =>
          obtain ⟨rfl, -⟩ := Result.ok.inj hrun
          refine iff_of_false Bool.false_ne_true fun h => ?_
          obtain ⟨final, hfinal⟩ := (hwell.1 h).run_publish hwriting (store.pubAt fid)
          rw [hpublish] at hfinal
          cases hfinal
      | fileNotFound | outOfRange | runtimeError | message | undefined => simp at hrun

/-- A file is found: it is in the cache and good, or it is not there and can be loaded well. -/
def Finds (store : Blockstore) (memory : Memory) (tree : FileTree) (cache : FileCache)
    (fid : Bytes) : Prop :=
  match cache.lookup fid with
  | some file => file.good = true
  | none => LoadsWell store memory tree fid

/-- `get_file` returns true exactly if the file is found. -/
theorem found_getFile_iff {world last : World} {cache next : FileCache} {fid : Bytes} {found : Bool}
    {path : Option FilePath}
    (h : (store.getFile memory cache fid).run world = .ok (found, path, next) last) :
    found = true ↔ Finds store memory world.tree cache fid := by
  obtain ⟨⟨file, after⟩, middle, hcached, hanswer⟩ := run_bind_eq_ok h
  have hgood : found = file.good := by
    cases hflag : file.good <;> simp_all
  rw [hgood, Finds]
  rw [cached] at hcached
  cases hlookup : cache.lookup fid with
  | some kept =>
      simp only [hlookup, run_pure, Result.ok.injEq, Prod.mk.injEq] at hcached
      rw [hcached.1.1]
  | none =>
      rw [hlookup] at hcached
      obtain ⟨loaded, started, hload, hrest⟩ := run_bind_eq_ok hcached
      rw [← good_loadFile_iff hload]
      -- whether or not another file is dropped, this one is returned
      have hsame : loaded = file := by
        cases cache with
        | nil => exact (Prod.mk.inj (Result.ok.inj hrest).1).1
        | cons entry rest =>
            dsimp only at hrest
            split at hrest
            · obtain ⟨-, dropped, -, hpure⟩ := run_bind_eq_ok hrest
              exact (Prod.mk.inj (Result.ok.inj hpure).1).1
            · exact (Prod.mk.inj (Result.ok.inj hrest).1).1
      rw [hsame]

/-- The header of an id and the public file, once that was opened. -/
def openedHeader (store : Blockstore) (tree : FileTree) (fid : Bytes) :
    Option (FileTree × FilePath × Bytes) := do
  let header ← tree.resolve (store.fileAt fid)
  let (opened, out) ← tree.opened (store.pubAt fid)
  let text ← opened.content header
  return (opened, out, text)

/-- The header and the public file are found one after the other. -/
theorem openedHeader_eq_some {tree opened : FileTree} {fid text : Bytes} {out : FilePath} :
    store.openedHeader tree fid = some (opened, out, text) ↔
      ∃ header, tree.resolve (store.fileAt fid) = some header ∧
        tree.opened (store.pubAt fid) = some (opened, out) ∧ opened.content header = some text := by
  simp only [openedHeader, Option.bind_eq_bind, Option.pure_def, Option.bind_eq_some_iff,
    Option.some.injEq, Prod.mk.injEq]
  constructor
  · rintro ⟨header, hheader, ⟨made, file⟩, hopened, bytes, hbytes, rfl, rfl, rfl⟩
    exact ⟨header, hheader, hopened, hbytes⟩
  · rintro ⟨header, hheader, hopened, htext⟩
    exact ⟨header, hheader, (opened, out), hopened, text, htext, rfl, rfl, rfl⟩

/-- Whether all blocks can be opened can be computed. -/
instance (store : Blockstore) (tree : FileTree) (ids : List Bytes) :
    Decidable (Readable store tree ids) :=
  inferInstanceAs (Decidable (∀ _ ∈ ids, _))

/-- A memory whose buffers have 1024 bytes. -/
def pageMemory : Memory := { zeroMemory with buffer := zeros 1024, integer := zeros 4 }

/-- One zero byte is published with its length. -/
theorem published_size_zeros_1 :
    SizesAgree zeroStore pageMemory (storedZeros 1) (zeroStore.idOf (zeros 1)) := by
  refine (published_size_iff zeroStore pageMemory (storedZeros 1) (zeroStore.idOf (zeros 1))
    (by decide +kernel)).mpr fun _ => ?_
  intro header opened out text hheader hopened htext hbig
  have hsize : ((zeroStore.openedHeader (storedZeros 1).tree (zeroStore.idOf (zeros 1))).map
      fun found => decide (headerSize pageMemory (some found.2.2) ≤ 1020)) = some true := by
    decide +kernel
  rw [openedHeader_eq_some.mpr ⟨header, hheader, hopened, htext⟩] at hsize
  have hblock : zeroStore.blocksize - 4 = 1020 := by decide
  simp only [Option.map_some, Option.some.injEq, decide_eq_true_eq] at hsize
  omega

/-- Of 2048 zero bytes only the last block, which is empty, is left, and nothing is published; the
file is good all the same. -/
theorem published_size_fails_zeros_2048 :
    ¬ SizesAgree zeroStore pageMemory (storedZeros 2048) (zeroStore.idOf (zeros 2048)) := by
  intro h
  have hfill := h.blocksFill (by decide +kernel)
  have hfound : ((zeroStore.openedHeader (storedZeros 2048).tree (zeroStore.idOf (zeros 2048))).map
      fun found => decide (1020 < headerSize pageMemory (some found.2.2) ∧
        Readable zeroStore found.1 (wholePieces hashSize (found.2.2.drop 4)) ∧
        (zeroStore.copied 1024 found.1 found.2.1 (wholePieces hashSize (found.2.2.drop 4))
          .opened false []).any (fun bytes =>
            bytes.length ≠ headerSize pageMemory (some found.2.2)))) = some true := by
    decide +kernel
  obtain ⟨⟨opened, out, text⟩, hsome, hlong⟩ := Option.map_eq_some_iff.mp hfound
  obtain ⟨header, hheader, hopened, htext⟩ := openedHeader_eq_some.mp hsome
  obtain ⟨hbig, hread, hany⟩ := of_decide_eq_true hlong
  obtain ⟨bytes, hbytes, hne⟩ := (Option.any_eq_true _ _).mp hany
  exact of_decide_eq_true hne (hfill header opened out text hheader hopened htext hbig hread bytes
    hbytes)

end Blockstore

end AnarchNet
