import AnarchNet.Blockstore.Faults
import AnarchNet.Blockstore.Interference
import AnarchNet.Blockstore.Partition

/-!
# Storing a file again after failures

`store_file` over calls that may fail. The header is made before the input is opened and before
any block is written, and whoever stores the file later takes the header as the proof that it is
stored. A call that fails before the header was made leaves nothing but directories, and a later
call mends everything; a call that fails afterwards leaves a header with a front part of the ids,
and no later call adds the others.
-/

namespace AnarchNet

open FileSystem EStateM

namespace Blockstore

variable {store : Blockstore}

/-! ## The calls -/

/-- `putBlock` with calls that may fail. -/
def putBlockFaulty (store : Blockstore) (header : FilePath) (stream : OutStream)
    (id bytes : Bytes) : FaultyStorage Bool := do
  match ← openBlockFaulty store.uniqueDir (← reliable (pathText id)) with
  | none => return false
  | some file => do
      reliable (writeAt file 0 bytes)
      if file = header then reliable (writeAt header stream.position stream.waiting)
      reliable (writeAt header stream.length (id.take hashSize))
      return true

/-- The loop of `store_file` with calls that may fail. -/
def storeBlocksFaulty (store : Blockstore) (memory : Memory) (content : Bytes) (header : FilePath) :
    Nat → Nat → OutStream → Bytes → FaultyStorage Bool
  | 0, _, _, _ => return true
  | count + 1, index, stream, old => do
      let size := store.blocksize
      let chunk := (content.drop (index * size)).take size
      let buffer := chunk ++ old.drop chunk.length
      let atEnd := chunk.length < size
      let readbytes :=
        if atEnd then absInt ((content.length + 2 ^ 32 - index * size % 2 ^ 32) % 2 ^ 32) else size
      let hashed :=
        if atEnd then buffer.take readbytes else cString (buffer ++ memory.behind index)
      let id := toHex (store.sha.hash hashed)
      if ← store.putBlockFaulty header stream id (buffer.take readbytes) then
        storeBlocksFaulty store memory content header count (index + 1)
          (stream.write memory.direct (id.take hashSize)) buffer
      else return false

/-- `store_file` with calls that may fail. `HashFile` opens the input once, and the input is opened
again when the header is there with its length. -/
def storeFileFaulty (store : Blockstore) (memory : Memory) (source : Option Bytes) :
    FaultyStorage (Bool × Bytes) :=
  match source with
  | none => return (false, [])
  | some content => do
      if ← opensFaulty then
        let hash := toHex (store.sha.hash content)
        let hpath ← reliable (pathText hash)
        let filesize := content.length % 2 ^ 32
        let write : FaultyStorage (Bool × Bytes) := do
          if ← reliable (present (store.uniqueDir ++ components hpath)) then return (true, hash)
          else match ← openBlockFaulty store.uniqueDir hpath with
            | none => return (false, [])
            | some header => do
                reliable (writeAt header 0 (uintBytes filesize))
                if ← opensFaulty then
                  if filesize ≤ store.blocksize then do
                    reliable (writeAt header 4 content)
                    return (true, hash)
                  else if ← store.storeBlocksFaulty memory content header
                      (filesize / store.blocksize + 1) 0
                      (OutStream.opened.write memory.direct (uintBytes filesize))
                      (memory.buffer.take store.blocksize) then
                    return (true, hash)
                  else return (false, [])
                else return (false, [])
        tryCatch write fun exception =>
          match exception with
          | .filesystemError => return (false, [])
          | other => throw other
      else return (false, [])

/-- Without faults, the loop is the reliable one. -/
theorem agrees_storeBlocks (store : Blockstore) (memory : Memory) (content : Bytes)
    (header : FilePath) (count index : Nat) (stream : OutStream) (old : Bytes) :
    Agrees (store.storeBlocksFaulty memory content header count index stream old)
      (store.storeBlocks memory content header count index stream old) := by
  induction count generalizing index stream old with
  | zero => exact Agrees.pure true
  | succ count ih =>
      refine Agrees.bind ?_ fun stored => Agrees.ite (ih _ _ _) (Agrees.pure false)
      refine Agrees.bind (Agrees.reliable _) fun text => Agrees.bind (agrees_openBlock _ _)
        fun file => ?_
      cases file with
      | none => exact Agrees.pure false
      | some file =>
          refine Agrees.bind (Agrees.reliable _) fun _ => Agrees.ite ?_ ?_
          · exact Agrees.bind (Agrees.reliable _) fun _ =>
              Agrees.bind (Agrees.reliable _) fun _ => Agrees.pure true
          · exact Agrees.bind (Agrees.reliable _) fun _ => Agrees.pure true

/-- Without faults, `store_file` is the reliable one. -/
theorem agrees_storeFile (store : Blockstore) (memory : Memory) (source : Option Bytes) :
    Agrees (store.storeFileFaulty memory source) (store.storeFile memory source) := by
  cases source with
  | none => exact Agrees.pure (false, [])
  | some content =>
      intro world
      refine Agrees.bind (Agrees.reliable _) (fun text => Agrees.tryCatch ?_ fun fault => ?_) world
      · refine Agrees.bind (Agrees.reliable _) fun there => Agrees.ite (Agrees.pure _) ?_
        refine Agrees.bind (agrees_openBlock _ _) fun file => ?_
        cases file with
        | none => exact Agrees.pure _
        | some file =>
            refine Agrees.bind (Agrees.reliable _) fun _ => ?_
            intro opened
            refine Agrees.ite (Agrees.bind (Agrees.reliable _) fun _ => Agrees.pure _)
              (Agrees.bind (agrees_storeBlocks store memory content _ _ _ _ _) fun stored =>
                Agrees.ite (Agrees.pure _) (Agrees.pure _)) opened
      · cases fault with
        | filesystemError => exact Agrees.pure _
        | fileNotFound | outOfRange | runtimeError | message | undefined => exact Agrees.throw _

/-! ## What a call leaves -/

/-- New directories on the way to a block change nothing in the map. -/
theorem Sound.of_dirsAlong {before after : FileTree} {id : Bytes} (h : Sound store before)
    (hid : HexId id) (hdirs : FileTree.DirsAlong
      (store.uniqueDir ++ components (removeFilename (shardText id))) before after) :
    Now store before after (store.view before) := by
  rw [hid.components_removeFilename] at hdirs
  have hplain : Plain (store.uniqueDir ++ (shard id).dropLast) := fun name hname =>
    (hid.validPath store.uniqueDir_valid).plain name (by
      rw [shard_eq_snoc, ← List.append_assoc]
      exact List.mem_append_left _ hname)
  have hget := hdirs.get hplain
  have houtside : ∀ path, ¬ store.uniqueDir <+: path → after.get path = before.get path := by
    intro path hpath
    rcases hget path with heq | ⟨hnone, -, hpre⟩
    · exact heq
    · rcases prefix_append_cases hpre with ⟨tail, htail⟩ | ⟨rest, rfl, -⟩
      · have hdir := FileTree.get_dir_of_append (htail ▸ h.blocks.base)
        simp [hdir] at hnone
      · exact absurd (List.prefix_append _ _) hpath
  have hfile : ∀ other, after.get (store.uniqueDir ++ shard other) =
      before.get (store.uniqueDir ++ shard other) := by
    intro other
    rcases hget (store.uniqueDir ++ shard other) with heq | ⟨-, -, hpre⟩
    · exact heq
    · have hlength := hpre.length_le
      simp [shard] at hlength
  refine ⟨⟨⟨?_, fun other above hother habove hne => ?_, fun other hother => ?_⟩, ?_,
    fun other hother => ?_, hdirs.linksToFiles h.links, fun path target hlink => ?_⟩,
    fun other hother => ?_, houtside, fun path old hold => ?_⟩
  · rcases hget store.uniqueDir with heq | ⟨hnone, -⟩
    · rw [heq, h.blocks.base]
    · simp [h.blocks.base] at hnone
  · rcases hget (store.uniqueDir ++ above) with heq | ⟨-, hdir, -⟩
    · rw [heq]
      exact h.blocks.above other above hother habove hne
    · exact Or.inr hdir
  · rw [hfile]
    exact h.blocks.files other hother
  · rw [houtside _ (store.not_unique_of_pub List.prefix_rfl), h.pub]
  · rw [houtside _ (store.not_unique_of_pub (List.prefix_append _ _))]
    exact h.published other hother
  · rcases hget path with heq | ⟨-, hdir, -⟩
    · exact h.apart path target (heq ▸ hlink)
    · simp [hdir] at hlink
  · rw [view, view, FileTree.content, FileTree.content, hfile]
  · rcases hget path with heq | ⟨-, hdir, -⟩
    · exact Or.inl (heq ▸ hold)
    · simp [hdir] at hold

/-- A tree that stays as it is. -/
theorem Sound.now_self {tree : FileTree} (h : Sound store tree) :
    Now store tree tree (store.view tree) :=
  ⟨h, fun _ _ => rfl, fun _ _ => rfl, fun _ _ hfile => Or.inl hfile⟩

section Calls

variable {state : FaultyWorld}

/-- A block and its id are written, or the map stays as it is. -/
theorem run_putBlockFaulty {fid id written : Bytes} (hsound : Sound store state.world.tree)
    (hfid : HexId fid) (hid : HexId id) (hother : id ≠ fid)
    (hwritten : store.view state.world.tree fid = some written) (stream : OutStream)
    (bytes : Bytes) :
    (∃ after, (store.putBlockFaulty (store.uniqueDir ++ shard fid) stream id bytes).run state =
        .ok true after ∧
      Now store state.world.tree after.world.tree
        (setId (setId (store.view state.world.tree) id (some bytes)) fid
          (some (overlay written stream.length id)))) ∨
      ∃ after, Now store state.world.tree after.world.tree (store.view state.world.tree) ∧
        ((store.putBlockFaulty (store.uniqueDir ++ shard fid) stream id bytes).run state =
            .ok false after ∨
          (store.putBlockFaulty (store.uniqueDir ++ shard fid) stream id bytes).run state =
            .error .filesystemError after) := by
  simp only [putBlockFaulty, run_bind, run_reliable, run_pathText hid, withFaults_ok]
  obtain ⟨faults, hsame | ⟨after, hdirs, hfail⟩⟩ :=
    run_openBlockFaulty_cases store.uniqueDir (shardText id) hsound.links
  · obtain ⟨opened, hopened, hnow1⟩ := run_openBlock_id hsound hid
    obtain ⟨filled, hfilled, hnow2⟩ := run_writeAt_id hnow1.sound hid
      (by rw [hnow1.view _ hid, setId_same]) 0 bytes
    rw [overlay_nil] at hnow2
    have hchain := hnow1.set hnow2
    rw [setId_setId] at hchain
    have hheader : store.view filled.tree fid = some written := by
      rw [hchain.view _ hfid, setId_other _ _ (Ne.symm hother), hwritten]
    obtain ⟨listed, hlisted, hnow3⟩ := run_writeAt_id hchain.sound hfid hheader stream.length id
    have htake : id.take hashSize = id := List.take_of_length_le hid.length.le
    refine Or.inl ⟨⟨listed, faults⟩, ?_, hchain.set hnow3⟩
    rw [hsame, hopened]
    simp only [withFaults_ok, run_bind, run_reliable, hfilled, if_neg (uniqueFile_ne hother), htake,
      hlisted, run_pure]
  · refine Or.inr ⟨⟨after, faults⟩, hsound.of_dirsAlong hid hdirs, ?_⟩
    rcases hfail with hfail | hfail
    · exact Or.inr (by rw [hfail])
    · exact Or.inl (by rw [hfail]; rfl)

/-- One round of the loop, in terms of the block that it stores. -/
theorem storeBlocksFaulty_succ {memory : Memory} {content : Bytes} {header : FilePath}
    {count index : Nat} {stream : OutStream} {old : Bytes}
    (hround : RightRound store content index) (hold : old.length ≤ store.blocksize) :
    store.storeBlocksFaulty memory content header (count + 1) index stream old = (do
      if ← store.putBlockFaulty header stream (store.blockId memory content index)
          (store.blockData content index) then
        store.storeBlocksFaulty memory content header count (index + 1)
          (stream.write memory.direct ((store.blockId memory content index).take hashSize))
          (store.blockData content index ++ old.drop (store.blockData content index).length)
      else return false) := by
  have hdata : (content.drop (index * store.blocksize)).take store.blocksize =
      store.blockData content index := rfl
  have hid : toHex (store.sha.hash (store.blockText memory content index)) =
      store.blockId memory content index := rfl
  rw [storeBlocksFaulty]
  simp only [hdata, written_eq_blockData hround, hashed_eq_blockText memory content index hold, hid]

/-- No block was stored, and nothing was added to the header. -/
theorem Now.listed_zero {before after : FileTree} (h : Now store before after (store.view before))
    (memory : Memory) (content : Bytes) {fid written : Bytes}
    (hwritten : store.view before fid = some written) (index : Nat) :
    Now store before after (setId
      (store.setBlocks memory content (store.view before) (List.range' index 0)) fid
      (some (written ++
        ((List.range' index 0).map (store.blockId memory content)).flatten))) := by
  refine h.congr fun id _ => ?_
  by_cases heq : id = fid
  · simp [heq, hwritten]
  · rw [setId_other _ _ heq]
    rfl

/-- The loop of `store_file` leaves a front part of the blocks and their ids. -/
theorem now_storeBlocksFaulty {memory : Memory} {content fid written : Bytes} {count index : Nat}
    {stream : OutStream} {old : Bytes}
    (hrounds : ∀ number < index + count, RightRound store content number)
    (hold : old.length ≤ store.blocksize) (hsound : Sound store state.world.tree) (hfid : HexId fid)
    (hwritten : store.view state.world.tree fid = some written)
    (hstream : stream.length = written.length)
    (halias : ∀ number < index + count, store.blockId memory content number ≠ fid) :
    ∃ done ≤ count, Now store state.world.tree ((store.storeBlocksFaulty memory content
        (store.uniqueDir ++ shard fid) count index stream old).run state).state.world.tree
      (setId (store.setBlocks memory content (store.view state.world.tree)
          (List.range' index done)) fid
        (some (written ++
          ((List.range' index done).map (store.blockId memory content)).flatten))) := by
  induction count generalizing index stream old written state with
  | zero => exact ⟨0, le_rfl, hsound.now_self.listed_zero memory content hwritten index⟩
  | succ count ih =>
      have hblock := store.hexId_blockId memory content index
      have hother := halias index (by omega)
      rw [storeBlocksFaulty_succ (hrounds index (by omega)) hold, run_bind]
      rcases run_putBlockFaulty hsound hfid hblock hother hwritten stream
        (store.blockData content index) with
        ⟨middle, hmiddle, hnow⟩ | ⟨after, hnow, hfail | hfail⟩
      · rw [hstream, overlay_length] at hnow
        have hbuffer : (store.blockData content index ++
            old.drop (store.blockData content index).length).length ≤ store.blocksize := by
          rw [List.length_append, List.length_drop, length_blockData]
          omega
        have htake : (store.blockId memory content index).take hashSize =
            store.blockId memory content index := List.take_of_length_le hblock.length.le
        have hlonger : (stream.write memory.direct (store.blockId memory content index)).length =
            (written ++ store.blockId memory content index).length := by
          rw [OutStream.length_write, hstream, List.length_append]
        have hlater : ∀ number < index + 1 + count, RightRound store content number :=
          fun number hnumber => hrounds number (by omega)
        obtain ⟨done, hdone, hrest⟩ := ih hlater hbuffer hnow.sound
          (by rw [hnow.view _ hfid, setId_same]) hlonger
          fun number hnumber => halias number (by omega)
        rw [hmiddle, htake]
        refine ⟨done + 1, Nat.succ_le_succ hdone, (hnow.trans hrest).congr fun id hid => ?_⟩
        by_cases heq : id = fid
        · rw [heq, setId_same, setId_same, List.range'_succ, List.map_cons, List.flatten_cons,
            List.append_assoc]
        · rw [setId_other _ _ heq, setId_other _ _ heq, List.range'_succ]
          refine setBlocks_congr ?_ _
          rw [hnow.view id hid, setId_other _ _ heq]
      · rw [hfail]
        exact ⟨0, Nat.zero_le _, hnow.listed_zero memory content hwritten index⟩
      · rw [hfail]
        exact ⟨0, Nat.zero_le _, hnow.listed_zero memory content hwritten index⟩

/-- A file that has a header is not touched. -/
theorem state_storeFileFaulty_old (hsound : Sound store state.world.tree) (memory : Memory)
    {content old : Bytes} (hold : store.view state.world.tree (store.idOf content) = some old) :
    ((store.storeFileFaulty memory (some content)).run state).state.world = state.world := by
  have hid := store.hexId_idOf content
  have hresolve := hsound.resolve_id hid
  rw [hold] at hresolve
  obtain ⟨good, faults, hopens⟩ := run_opensFaulty (ε := Exception) state
  simp only [storeFileFaulty, run_bind, hopens]
  cases good with
  | false => rfl
  | true =>
      simp only [if_true, show toHex (store.sha.hash content) = store.idOf content from rfl,
        run_bind, run_reliable, run_pathText hid, withFaults_ok, run_tryCatch_eq, run_present,
        hresolve]
      rfl

/-- What a call leaves that did not find a header: nothing new in the map, the whole file in its
header, or a header that lists the first blocks. -/
theorem now_storeFileFaulty_new (hsound : Sound store state.world.tree) {memory : Memory}
    {content : Bytes} (hsize : content.length < 2 ^ 32)
    (hnew : store.view state.world.tree (store.idOf content) = none)
    (hquiet : Quiet store memory content) :
    Now store state.world.tree
        ((store.storeFileFaulty memory (some content)).run state).state.world.tree
        (store.view state.world.tree) ∨
      content.length ≤ store.blocksize ∧ Now store state.world.tree
        ((store.storeFileFaulty memory (some content)).run state).state.world.tree
        (setId (store.view state.world.tree) (store.idOf content)
          (some (uintBytes content.length ++ content))) ∨
      ∃ count ≤ content.length / store.blocksize + 1,
        (content.length ≤ store.blocksize → count = 0) ∧ Now store state.world.tree
        ((store.storeFileFaulty memory (some content)).run state).state.world.tree
        (store.setListed memory content content.length count (store.view state.world.tree)) := by
  have hid := store.hexId_idOf content
  have hmod : content.length % 2 ^ 32 = content.length := Nat.mod_eq_of_lt hsize
  have hresolve := hsound.resolve_id hid
  rw [hnew] at hresolve
  obtain ⟨good, faults, hopens⟩ := run_opensFaulty (ε := Exception) state
  simp only [storeFileFaulty, run_bind, hopens]
  cases good with
  | false => exact Or.inl hsound.now_self
  | true =>
      simp only [if_true, show toHex (store.sha.hash content) = store.idOf content from rfl,
        run_bind, run_reliable, run_pathText hid, withFaults_ok]
      rw [state_tryCatch (fun fault last => by cases fault <;> rfl)]
      simp only [run_bind, run_reliable, run_present, hresolve, withFaults_ok, Option.map_none,
        Option.isSome_none, Bool.false_eq_true, if_false, hmod]
      have hstart : Sound store (FaultyWorld.mk state.world faults).world.tree := hsound
      obtain ⟨left, hsame | ⟨after, hdirs, hfail⟩⟩ :=
        run_openBlockFaulty_cases store.uniqueDir (shardText (store.idOf content)) hstart.links
      · obtain ⟨opened, hopened, hnow⟩ := run_openBlock_id hsound hid
        obtain ⟨sized, hsized, hnext⟩ := run_writeAt_id hnow.sound hid
          (by rw [hnow.view _ hid, setId_same]) 0 (uintBytes content.length)
        rw [overlay_nil] at hnext
        have hchain := hnow.set hnext
        rw [setId_setId] at hchain
        obtain ⟨again, later, hagain⟩ := run_opensFaulty (ε := Exception) ⟨sized, left⟩
        rw [hsame, hopened]
        simp only [withFaults_ok, run_bind, run_reliable, hsized, hagain]
        cases again with
        | false =>
            refine Or.inr (Or.inr ⟨0, Nat.zero_le _, fun _ => rfl, hchain.congr fun id _ => ?_⟩)
            simp [setListed, setBlocks]
        | true =>
            simp only [if_true]
            by_cases hsmall : content.length ≤ store.blocksize
            · obtain ⟨after, hafter, hlast⟩ := run_writeAt_id hchain.sound hid
                (by rw [hchain.view _ hid, setId_same]) 4 content
              have hover : overlay (uintBytes content.length) 4 content =
                  uintBytes content.length ++ content := overlay_length _ content
              have hwhole := hchain.set hlast
              rw [setId_setId, hover] at hwhole
              rw [if_pos hsmall]
              simp only [run_bind, run_reliable, hafter, withFaults_ok]
              exact Or.inr (Or.inl ⟨hsmall, hwhole⟩)
            · have hbig := not_le.mp hsmall
              have hstarted : Sound store (FaultyWorld.mk sized later).world.tree := hchain.sound
              have hstream : (OutStream.opened.write memory.direct
                  (uintBytes content.length)).length = (uintBytes content.length).length :=
                OutStream.length_write.trans (Nat.zero_add _)
              obtain ⟨count, hcount, hdone⟩ := now_storeBlocksFaulty
                (fun number (hnumber : number < 0 + (content.length / store.blocksize + 1)) =>
                  rightRound_of_lt hsize hbig (by omega))
                (List.length_take_le store.blocksize memory.buffer) hstarted hid
                (by rw [hchain.view _ hid, setId_same]) hstream
                fun number hnumber => hquiet number (by
                  rw [blockIndices, if_neg hsmall, List.mem_range'_1]
                  omega)
              refine Or.inr (Or.inr ⟨count, hcount, fun hle => absurd hle hsmall, ?_⟩)
              have hlisted : Now store state.world.tree ((store.storeBlocksFaulty memory content
                  (store.uniqueDir ++ shard (store.idOf content))
                  (content.length / store.blocksize + 1) 0
                  (OutStream.opened.write memory.direct (uintBytes content.length))
                  (memory.buffer.take store.blocksize)).run ⟨sized, later⟩).state.world.tree
                  (store.setListed memory content content.length count
                    (store.view state.world.tree)) := hchain.setListed hdone
              rw [if_neg hsmall, run_bind]
              cases hrun : (store.storeBlocksFaulty memory content
                  (store.uniqueDir ++ shard (store.idOf content))
                  (content.length / store.blocksize + 1) 0
                  (OutStream.opened.write memory.direct (uintBytes content.length))
                  (memory.buffer.take store.blocksize)).run ⟨sized, later⟩ with
              | error fault last =>
                  rw [hrun] at hlisted
                  exact hlisted
              | ok stored last =>
                  rw [hrun] at hlisted
                  cases stored with
                  | false => exact hlisted
                  | true => exact hlisted
      · refine Or.inl ?_
        rcases hfail with hfail | hfail
        · rw [hfail]
          exact hsound.of_dirsAlong hid hdirs
        · rw [hfail]
          exact hsound.of_dirsAlong hid hdirs

end Calls

/-! ## Files that come back -/

/-- In this memory, `store_file` and `load_file` carry the file over every empty store. -/
def CarriesOver (store : Blockstore) (memory : Memory) (content : Bytes) : Prop :=
  ∀ later world, Empty store world.tree → ∃ stored,
    (store.storeFile memory (some content)).run world =
        .ok (true, toHex (store.sha.hash content)) stored ∧
      store.Publishes later stored content

/-- Blocks that are not too long do not join to more than that. -/
theorem length_joined_le {blocks : List Bytes} {bound : Nat}
    (h : ∀ block ∈ blocks, block.length ≤ bound) :
    (joined blocks).length ≤ blocks.length * bound := by
  have hsum : (blocks.map List.length).sum ≤ blocks.length * bound := by
    have hcard := List.sum_le_card_nsmul (blocks.map List.length) bound fun length hlength => by
      obtain ⟨block, hblock, rfl⟩ := List.mem_map.mp hlength
      exact h block hblock
    simpa using hcard
  have hpre := (joined_le_flatten blocks).length_le
  rw [List.length_flatten] at hpre
  exact hpre.trans hsum

/-- The blocks that are left are blocks of the file. -/
theorem length_leftAmong_le (memory : Memory) (content : Bytes) {indices : List Nat} {index : Nat}
    (h : index ∈ indices) :
    (store.leftAmong memory content indices index).length ≤ store.blocksize := by
  obtain ⟨other, -, -, hset⟩ := store.setBlocks_mem memory content h
  rw [leftAmong, hset, Option.getD_some, length_blockData]
  exact Nat.min_le_left _ _

namespace CarriesOver

variable {memory : Memory} {content : Bytes}

/-- A file that comes back and is kept in its header leaves room for its length there. -/
theorem fits (h : CarriesOver store memory content)
    (hsmall : content.length % 2 ^ 32 ≤ store.blocksize) :
    content.length + 4 ≤ store.blocksize := by
  have hid := store.hexId_idOf content
  have hblock := store.le_blocksize
  have hle := Nat.mod_le content.length (2 ^ 32)
  obtain ⟨stored, hstored, hnow⟩ := run_storeFile_inline store.empty_fresh.sound memory hsmall
    (store.empty_fresh.view_eq_none _)
  obtain ⟨stored', hstored', hpub⟩ := h memory store.fresh store.empty_fresh
  obtain ⟨-, rfl⟩ : _ ∧ stored = stored' := by simpa using hstored.symm.trans hstored'
  have hheader : store.view stored.tree (store.idOf content) =
      some (uintBytes (content.length % 2 ^ 32) ++ content) := by rw [hnow.view _ hid, setId_same]
  rcases Nat.lt_or_ge (store.blocksize - 4) (content.length % 2 ^ 32) with hlong | hshort
  · obtain ⟨path, after, hload, hcontent⟩ := hpub
    exact absurd hcontent (not_published_of_longFiles hnow.sound memory hid hheader hlong
      (Nat.mod_lt _ (by decide)) hle
      (longFiles_of_now store.empty_fresh store.fresh_noFiles hnow) hload)
  · obtain ⟨after, hafter, hget⟩ := run_loadFile_inline hnow.sound memory hid hheader hshort
    have hbytes := congrArg List.length ((publishes_of_loaded hafter hget).mp hpub)
    have hlength := List.length_take_le (content.length % 2 ^ 32)
      (content.take (content.length % 2 ^ 32) ++
        memory.buffer.drop (content.take (content.length % 2 ^ 32)).length)
    omega

/-- A file that comes back has a length that is a `uint`. -/
theorem length_lt (h : CarriesOver store memory content) (hquiet : Quiet store memory content) :
    content.length < 2 ^ 32 := by
  have hunits : store.blocksize < 2 ^ 32 := store.units_lt
  by_contra hlarge
  obtain ⟨size, hsize⟩ : ∃ size, content.length % 2 ^ 32 = size := ⟨_, rfl⟩
  have hbig : store.blocksize < size := by
    by_contra hsmall
    have := h.fits (hsize ▸ not_lt.mp hsmall)
    omega
  have hspace : (size / store.blocksize + 1) * store.blocksize < content.length := by
    have hmul := Nat.div_mul_le_self size store.blocksize
    rw [Nat.add_mul, Nat.one_mul]
    omega
  have hfull : ∀ number < size / store.blocksize + 1,
      (number + 1) * store.blocksize ≤ content.length := fun number hnumber =>
    (Nat.mul_le_mul_right _ (Nat.succ_le_of_lt hnumber)).trans hspace.le
  have halias : ∀ number < size / store.blocksize + 1,
      store.blockId memory content number ≠ store.idOf content := fun number hnumber => by
    have hdiv : size / store.blocksize ≤ content.length / store.blocksize :=
      Nat.div_le_div_right (hsize ▸ Nat.mod_le _ _)
    refine hquiet number ?_
    rw [blockIndices, if_neg (by omega), List.mem_range'_1]
    omega
  obtain ⟨stored, hstored, hnow⟩ := run_storeFile_listed store.empty_fresh.sound memory hsize hbig
    (store.empty_fresh.view_eq_none _) (fun number hnumber => Or.inl (by
      have := hfull number hnumber
      rw [Nat.add_mul, Nat.one_mul] at this
      rw [length_blockData]
      omega)) halias
  obtain ⟨stored', hstored', hpub⟩ := h memory store.fresh store.empty_fresh
  obtain ⟨-, rfl⟩ : _ ∧ stored = stored' := by simpa using hstored.symm.trans hstored'
  obtain ⟨after, hafter, hget⟩ := run_loadFile_listed hnow.sound memory memory
    (show store.blocksize - 4 < size by omega) (hsize ▸ Nat.mod_lt _ (by decide))
    (by rw [hnow.view _ (store.hexId_idOf content), setListed, setId_same])
    fun index hindex => by
      rw [List.mem_range'_1] at hindex
      rw [hnow.view _ (store.hexId_blockId memory content index), setListed,
        setId_other _ _ (halias index (by omega))]
      exact setBlocks_congr (store.empty_fresh.view_eq_none _) _
  have hbytes := congrArg List.length ((publishes_of_loaded hafter hget).mp hpub)
  have hblocks : ∀ block ∈ (List.range' 0 (size / store.blocksize + 1)).map
      (store.leftAmong memory content (List.range' 0 (size / store.blocksize + 1))),
      block.length ≤ store.blocksize := fun block hblock => by
    obtain ⟨index, hindex, rfl⟩ := List.mem_map.mp hblock
    exact length_leftAmong_le memory content hindex
  have hjoined := length_joined_le hblocks
  rw [List.length_map, List.length_range'] at hjoined
  omega

/-- The blocks of a file that comes back are what is left under their ids. -/
theorem leftBlock_eq (h : CarriesOver store memory content) (hquiet : Quiet store memory content)
    (hbig : store.blocksize < content.length) :
    ∀ index ∈ store.blockIndices content,
      store.leftBlock memory content index = store.blockData content index := by
  obtain ⟨stored, after, hstored, hafter, hget⟩ := run_store_and_load store.empty_fresh.sound memory
    memory hbig (h.length_lt hquiet) (store.empty_fresh.view_eq_none _) hquiet
  obtain ⟨stored', hstored', hpub⟩ := h memory store.fresh store.empty_fresh
  obtain ⟨-, rfl⟩ : _ ∧ stored = stored' := by simpa using hstored.symm.trans hstored'
  exact leftBlock_eq_of_joined hbig ((publishes_of_loaded hafter hget).mp hpub)

/-- They are also left after the first blocks alone were stored. -/
theorem leftAmong_eq (h : CarriesOver store memory content) (hquiet : Quiet store memory content)
    (hbig : store.blocksize < content.length) {count : Nat}
    (hcount : count ≤ content.length / store.blocksize + 1) {index : Nat}
    (hindex : index ∈ List.range' 0 count) :
    store.leftAmong memory content (List.range' 0 count) index =
      store.blockData content index := by
  have hall : ∀ number ∈ List.range' 0 count, number ∈ store.blockIndices content :=
    fun number hnumber => by
      rw [blockIndices, if_neg (not_le.mpr hbig)]
      rw [List.mem_range'_1] at hnumber ⊢
      omega
  obtain ⟨other, hother, hid, hset⟩ := store.setBlocks_mem memory content hindex
  calc store.leftAmong memory content (List.range' 0 count) index
      = store.blockData content other := by rw [leftAmong, hset, Option.getD_some]
    _ = store.leftBlock memory content other :=
        (h.leftBlock_eq hquiet hbig other (hall _ hother)).symm
    _ = store.leftBlock memory content index := by rw [leftBlock, leftBlock, hid]
    _ = store.blockData content index := h.leftBlock_eq hquiet hbig index (hall _ hindex)

end CarriesOver

/-! ## Attempts -/

/-- A call of `store_file`: the memory that it runs in, and for its calls that open or create
something whether they fail. -/
structure Attempt where
  memory : Memory
  faults : List Bool

/-- The file system after an attempt to store a file. -/
def Attempt.apply (store : Blockstore) (content : Bytes) (world : World) (attempt : Attempt) :
    World :=
  ((store.storeFileFaulty attempt.memory (some content)).run ⟨world, attempt.faults⟩).state.world

/-- The file system after attempts to store a file, one after the other. -/
def runAttempts (store : Blockstore) (content : Bytes) (attempts : List Attempt) (world : World) :
    World :=
  attempts.foldl (Attempt.apply store content) world

/-- If a further call without failures returns true with an id, `load_file` publishes the file
under it. -/
def Recovers (store : Blockstore) (content : Bytes) (world : World) : Prop :=
  ∀ memory later id stored, CarriesOver store memory content → Quiet store memory content →
    (store.storeFile memory (some content)).run world = .ok (true, id) stored →
    ∃ path after, (store.loadFile later id).run stored = .ok ⟨some path, true⟩ after ∧
      after.tree.content path = some content

/-- If the file has a header, it holds all bytes of a small file, or the ids of blocks that are
long enough for all bytes of a big one. -/
def HeaderComplete (store : Blockstore) (content : Bytes) (tree : FileTree) : Prop :=
  ∀ header ∈ store.view tree (store.idOf content),
    if content.length ≤ store.blocksize then 4 + content.length ≤ header.length
    else content.length ≤ (header.length - 4) / hashSize * store.blocksize

/-- What attempts leave in a store that was empty: nothing, the whole file in its header, or a
header that lists the first blocks, which are there. -/
inductive Leaves (store : Blockstore) (suits : Memory → Prop) (content : Bytes)
    (map : Bytes → Option Bytes) : Prop where
  | nothing (hmap : ∀ id, HexId id → map id = none)
  | whole (memory : Memory) (hsuits : suits memory) (hsmall : content.length ≤ store.blocksize)
      (hmap : map (store.idOf content) = some (uintBytes content.length ++ content))
  | listed (memory : Memory) (count : Nat) (hsuits : suits memory)
      (hcount : count ≤ content.length / store.blocksize + 1)
      (hzero : content.length ≤ store.blocksize → count = 0)
      (hmap : ∀ id, HexId id →
        map id = store.setListed memory content content.length count (fun _ => none) id)

/-- A file comes back in this memory, and no block of it takes the place of the header. -/
def Suits (store : Blockstore) (content : Bytes) (memory : Memory) : Prop :=
  CarriesOver store memory content ∧ Quiet store memory content

section Runs

variable {content : Bytes} {world : World}

/-- One attempt. -/
theorem Leaves.apply (hsound : Sound store world.tree)
    (h : Leaves store (Suits store content) content (store.view world.tree)) {attempt : Attempt}
    (hsuits : Suits store content attempt.memory) :
    Sound store (attempt.apply store content world).tree ∧
      Leaves store (Suits store content) content
        (store.view (attempt.apply store content world).tree) := by
  have hid := store.hexId_idOf content
  have hstart : Sound store (FaultyWorld.mk world attempt.faults).world.tree := hsound
  have hold : ∀ old, store.view world.tree (store.idOf content) = some old →
      attempt.apply store content world = world := fun old hview =>
    state_storeFileFaulty_old hstart attempt.memory hview
  cases h with
  | nothing hmap =>
      rcases now_storeFileFaulty_new hstart (hsuits.1.length_lt hsuits.2) (hmap _ hid) hsuits.2 with
        hnow | ⟨hsmall, hnow⟩ | ⟨count, hcount, hzero, hnow⟩
      · exact ⟨hnow.sound, .nothing fun id hid' => by rw [← hmap id hid']; exact hnow.view id hid'⟩
      · exact ⟨hnow.sound, .whole attempt.memory hsuits hsmall
          ((hnow.view _ hid).trans (setId_same _ _ _))⟩
      · refine ⟨hnow.sound, .listed attempt.memory count hsuits hcount hzero fun id hid' =>
          (hnow.view id hid').trans ?_⟩
        rw [setListed, setListed]
        by_cases heq : id = store.idOf content
        · rw [heq, setId_same, setId_same]
        · rw [setId_other _ _ heq, setId_other _ _ heq]
          exact setBlocks_congr (hmap id hid') _
  | whole memory hmemory hsmall hmap =>
      rw [hold _ hmap]
      exact ⟨hsound, .whole memory hmemory hsmall hmap⟩
  | listed memory count hmemory hcount hzero hmap =>
      rw [hold _ ((hmap _ hid).trans (setId_same _ _ _))]
      exact ⟨hsound, .listed memory count hmemory hcount hzero hmap⟩

/-- A run of attempts. -/
theorem Leaves.run {attempts : List Attempt} (hsound : Sound store world.tree)
    (h : Leaves store (Suits store content) content (store.view world.tree))
    (hsuits : ∀ attempt ∈ attempts, Suits store content attempt.memory) :
    Sound store (store.runAttempts content attempts world).tree ∧
      Leaves store (Suits store content) content
        (store.view (store.runAttempts content attempts world).tree) := by
  induction attempts generalizing world with
  | nil => exact ⟨hsound, h⟩
  | cons attempt attempts ih =>
      obtain ⟨hnext, hleaves⟩ := h.apply hsound (hsuits attempt List.mem_cons_self)
      exact ih hnext hleaves fun other hother => hsuits other (List.mem_cons_of_mem _ hother)

/-- Where nothing is left of the attempts, the file comes back. -/
theorem recovers_of_nothing (hsound : Sound store world.tree)
    (hnothing : ∀ id, HexId id → store.view world.tree id = none) :
    Recovers store content world := by
  intro memory later id stored hcarries hquiet hstored
  have hsize := hcarries.length_lt hquiet
  have hfits : content.length + 4 ≤ store.blocksize ∨ store.blocksize < content.length := by
    rcases Nat.lt_or_ge store.blocksize content.length with hbig | hsmall
    · exact Or.inr hbig
    · exact Or.inl (hcarries.fits (by rwa [Nat.mod_eq_of_lt hsize]))
  have hnew := hnothing _ (store.hexId_idOf content)
  obtain ⟨after, hafter, -⟩ := run_storeFile_new hsound memory hsize hnew hquiet
  obtain ⟨heq, rfl⟩ := Result.ok.inj (hafter.symm.trans hstored)
  obtain rfl : store.idOf content = id := congrArg Prod.snd heq
  obtain ⟨other, hother, hpub⟩ := hcarries later store.fresh store.empty_fresh
  rw [publishes_stored_iff store.empty_fresh.sound hfits hsize
    (store.empty_fresh.view_eq_none _) hquiet hother] at hpub
  exact (publishes_stored_iff hsound hfits hsize hnew hquiet hafter).mpr hpub

/-- Where there is a header, a further call does nothing. -/
theorem recovers_of_publishes (hsound : Sound store world.tree) {header : Bytes}
    (hheader : store.view world.tree (store.idOf content) = some header)
    (h : ∀ later, store.Publishes later world content) : Recovers store content world := by
  intro memory later id stored _ _ hstored
  obtain ⟨heq, rfl⟩ := Result.ok.inj ((run_storeFile_old hsound memory hheader).symm.trans hstored)
  obtain rfl : store.idOf content = id := congrArg Prod.snd heq
  exact h later

/-- So what it publishes must be published already. -/
theorem Recovers.publishes (h : Recovers store content world) (hsound : Sound store world.tree)
    {header : Bytes} (hheader : store.view world.tree (store.idOf content) = some header)
    {memory : Memory} (hsuits : Suits store content memory) (later : Memory) :
    store.Publishes later world content :=
  h memory later _ world hsuits.1 hsuits.2 (run_storeFile_old hsound memory hheader)

/-- A header with the length of a file and nothing else publishes what the buffer holds. -/
theorem publishes_sized_iff (hsound : Sound store world.tree)
    (hfits : content.length + 4 ≤ store.blocksize)
    (hheader : store.view world.tree (store.idOf content) = some (uintBytes content.length)) :
    (∀ later, store.Publishes later world content) ↔ content = [] := by
  have hload (later : Memory) := run_loadFile_inline hsound later (store.hexId_idOf content)
    (show _ = some (uintBytes content.length ++ []) by rw [hheader, List.append_nil])
    (show content.length ≤ store.blocksize - 4 by omega)
  constructor
  · intro h
    cases content with
    | nil => rfl
    | cons byte rest =>
        -- a buffer full of another byte than the first one of the file
        obtain ⟨after, hafter, hget⟩ :=
          hload ⟨fun _ => [], List.replicate store.blocksize (byte + 1), [], 1024, by decide⟩
        have hbytes := (publishes_of_loaded hafter hget).mp (h _)
        obtain ⟨size, hsize⟩ : ∃ size, store.blocksize = size + 1 :=
          ⟨store.blocksize - 1, by have := store.blocksize_pos; omega⟩
        rw [hsize, List.replicate_succ] at hbytes
        simp at hbytes
  · rintro rfl later
    obtain ⟨after, hafter, hget⟩ := hload later
    exact (publishes_of_loaded hafter hget).mpr (by simp)

/-- A header that lists the first blocks publishes them. -/
theorem publishes_listed_iff (hsound : Sound store world.tree) {memory : Memory} {count : Nat}
    (hsuits : Suits store content memory) (hbig : store.blocksize < content.length)
    (hcount : count ≤ content.length / store.blocksize + 1)
    (hview : ∀ id, HexId id → store.view world.tree id =
      store.setListed memory content content.length count (fun _ => none) id) (later : Memory) :
    store.Publishes later world content ↔ content.length ≤ count * store.blocksize := by
  obtain ⟨after, hafter, hget⟩ := run_loadFile_listed hsound memory later
    (show store.blocksize - 4 < content.length by omega) (hsuits.1.length_lt hsuits.2)
    ((hview _ (store.hexId_idOf content)).trans (setId_same _ _ _)) fun index hindex => by
      rw [hview _ (store.hexId_blockId memory content index), setListed, setId_other]
      refine hsuits.2 index ?_
      rw [blockIndices, if_neg (not_le.mpr hbig)]
      rw [List.mem_range'_1] at hindex ⊢
      omega
  rw [publishes_of_loaded hafter hget, List.map_congr_left fun index hindex =>
    hsuits.1.leftAmong_eq hsuits.2 hbig hcount hindex, joined_blockData hcount,
    List.take_eq_self_iff]

/-- How long a header that lists blocks is. -/
theorem length_listed (memory : Memory) (content : Bytes) (count : Nat) :
    (uintBytes content.length ++
      ((List.range' 0 count).map (store.blockId memory content)).flatten).length =
        4 + hashSize * count := by
  rw [List.length_append, length_flatten_ids fun index =>
    (store.hexId_blockId memory content index).length, List.length_range']
  rfl

end Runs

/-- After attempts to store a file in an empty store, however they failed, the file comes back from
a further call exactly if the attempts left no header or a complete one. -/
theorem retry_recovers_iff (store : Blockstore) (content : Bytes) (attempts : List Attempt)
    (world : World) (hempty : Empty store world.tree)
    (hcarries : ∀ attempt ∈ attempts, CarriesOver store attempt.memory content)
    (hquiet : ∀ attempt ∈ attempts, Quiet store attempt.memory content) :
    Recovers store content (store.runAttempts content attempts world) ↔
      HeaderComplete store content (store.runAttempts content attempts world).tree := by
  obtain ⟨hsound, hleaves⟩ := Leaves.run hempty.sound (.nothing fun id _ => hempty.view_eq_none id)
    fun attempt hattempt => ⟨hcarries attempt hattempt, hquiet attempt hattempt⟩
  have hid := store.hexId_idOf content
  cases hleaves with
  | nothing hmap =>
      refine iff_of_true (recovers_of_nothing hsound hmap) fun header hheader => ?_
      simp [hmap _ hid] at hheader
  | whole memory hsuits hsmall hmap =>
      have hfits := hsuits.1.fits ((Nat.mod_le _ _).trans hsmall)
      refine iff_of_true (recovers_of_publishes hsound hmap fun later => ?_)
        fun header hheader => ?_
      · obtain ⟨after, hafter, hget⟩ := run_loadFile_small hsound later hid hmap (by omega)
        exact (publishes_of_loaded hafter hget).mpr rfl
      · obtain rfl := Option.some.inj (hmap.symm.trans hheader)
        rw [if_pos hsmall, List.length_append]
        exact le_rfl
  | listed memory count hsuits hcount hzero hmap =>
      have hheader := (hmap _ hid).trans (setId_same _ _ _)
      have hlength := store.length_listed memory content count
      rcases Nat.lt_or_ge store.blocksize content.length with hbig | hsmall
      · have hcomplete : HeaderComplete store content
            (store.runAttempts content attempts world).tree ↔
              content.length ≤ count * store.blocksize := by
          simp only [HeaderComplete, hheader, Option.mem_def, Option.some.injEq, forall_eq',
            if_neg (not_le.mpr hbig), hlength, Nat.add_sub_cancel_left]
          rw [Nat.mul_div_cancel_left _ (by decide)]
        rw [hcomplete]
        constructor
        · intro h
          exact (publishes_listed_iff hsound hsuits hbig hcount hmap memory).mp
            (h.publishes hsound hheader hsuits memory)
        · intro hall
          exact recovers_of_publishes hsound hheader fun later =>
            (publishes_listed_iff hsound hsuits hbig hcount hmap later).mpr hall
      · obtain rfl := hzero hsmall
        have hsized : store.view (store.runAttempts content attempts world).tree
            (store.idOf content) = some (uintBytes content.length) := by
          rw [hheader]
          exact congrArg some (List.append_nil _)
        have hpublishes := publishes_sized_iff hsound
          (hsuits.1.fits ((Nat.mod_le _ _).trans hsmall)) hsized
        have hcomplete : HeaderComplete store content
            (store.runAttempts content attempts world).tree ↔ content = [] := by
          have hfour : (uintBytes content.length).length = 4 := rfl
          simp only [HeaderComplete, hsized, Option.mem_def, Option.some.injEq, forall_eq',
            if_pos hsmall, hfour]
          rw [← List.length_eq_zero_iff]
          omega
        rw [hcomplete, ← hpublishes]
        exact ⟨fun h => h.publishes hsound hheader hsuits, recovers_of_publishes hsound hheader⟩

/-- A file that leaves room for its length in a block comes back. -/
theorem carriesOver_of_fits (memory : Memory) {content : Bytes}
    (h : content.length + 4 ≤ store.blocksize) : CarriesOver store memory content := by
  intro later world hempty
  have hid := store.hexId_idOf content
  obtain ⟨stored, hstored, hnow⟩ := run_storeFile_small hempty.sound memory
    (hempty.view_eq_none _) (show content.length ≤ store.blocksize by omega)
  obtain ⟨after, hafter, hget⟩ := run_loadFile_small hnow.sound later hid
    (by rw [hnow.view _ hid, setId_same]) (by omega)
  exact ⟨stored, hstored, (publishes_of_loaded hafter hget).mpr rfl⟩

/-- A small file has no blocks. -/
theorem quiet_of_small (memory : Memory) {content : Bytes}
    (h : content.length ≤ store.blocksize) : Quiet store memory content := by
  intro index hindex
  rw [blockIndices, if_pos h] at hindex
  simp at hindex

/-- A file of one zero byte comes back after its first directory could not be made. -/
theorem retry_recovers_zeros_1 :
    Recovers zeroStore (zeros 1)
      (zeroStore.runAttempts (zeros 1) [⟨zeroMemory, [false, true]⟩] zeroStore.fresh) := by
  have hsmall : (zeros 1).length + 4 ≤ zeroStore.blocksize := by decide
  refine (retry_recovers_iff zeroStore (zeros 1) [⟨zeroMemory, [false, true]⟩] zeroStore.fresh
    zeroStore.empty_fresh (fun attempt _ => carriesOver_of_fits attempt.memory hsmall)
    fun attempt _ => quiet_of_small attempt.memory (by decide)).mpr fun header hheader => ?_
  have hnone : zeroStore.view (zeroStore.runAttempts (zeros 1) [⟨zeroMemory, [false, true]⟩]
      zeroStore.fresh).tree (zeroStore.idOf (zeros 1)) = none := by decide +kernel
  rw [hnone] at hheader
  simp at hheader

/-- A file of one zero byte does not come back after the input could not be opened for the second
time, when its header was there. -/
theorem retry_fails_zeros_1 :
    Empty zeroStore zeroStore.fresh.tree ∧ CarriesOver zeroStore zeroMemory (zeros 1) ∧
      Quiet zeroStore zeroMemory (zeros 1) ∧
      ((zeroStore.storeFileFaulty zeroMemory (some (zeros 1))).run
        ⟨zeroStore.fresh, [false, false, false, false, true]⟩).value? = some (false, []) ∧
      ¬ Recovers zeroStore (zeros 1) (zeroStore.runAttempts (zeros 1)
        [⟨zeroMemory, [false, false, false, false, true]⟩] zeroStore.fresh) := by
  have hsmall : (zeros 1).length + 4 ≤ zeroStore.blocksize := by decide
  have hsuits : Suits zeroStore (zeros 1) zeroMemory :=
    ⟨carriesOver_of_fits zeroMemory hsmall, quiet_of_small zeroMemory (by decide)⟩
  refine ⟨zeroStore.empty_fresh, hsuits.1, hsuits.2, by decide +kernel, fun h => ?_⟩
  obtain ⟨hsound, -⟩ := Leaves.run zeroStore.empty_fresh.sound
    (.nothing fun id _ => zeroStore.empty_fresh.view_eq_none id)
    (fun attempt hattempt => by
      rw [List.mem_singleton] at hattempt
      rw [hattempt]
      exact hsuits : ∀ attempt ∈ [⟨zeroMemory, [false, false, false, false, true]⟩],
        Suits zeroStore (zeros 1) (Attempt.memory attempt))
  have hheader : zeroStore.view (zeroStore.runAttempts (zeros 1)
      [⟨zeroMemory, [false, false, false, false, true]⟩] zeroStore.fresh).tree
      (zeroStore.idOf (zeros 1)) = some (uintBytes (zeros 1).length) := by decide +kernel
  have hempty := (publishes_sized_iff hsound hsmall hheader).mp (h.publishes hsound hheader hsuits)
  exact absurd hempty (by decide)

end Blockstore

end AnarchNet
