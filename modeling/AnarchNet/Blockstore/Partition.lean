import AnarchNet.Blockstore.RoundTrip

/-!
# What `store_file` writes

The loop of `store_file` is a sequence of rounds, each of which writes one block and adds its id to
the header. The header is open while the blocks are written, so a block that gets the id of the
file itself replaces what was in the header so far. What was still in the buffer of its stream, and
the ids that follow, are written over the bytes of that block. The results say when the header
nevertheless holds the length of the file and the ids of its blocks.
-/

namespace AnarchNet

open FileSystem

namespace Blockstore

variable {store : Blockstore}

/-- One round of the loop: the number of a block, its id and the bytes written to its file. -/
structure Round where
  index : Nat
  id : Bytes
  bytes : Bytes

/-- The rounds of the loop of `store_file`. -/
def rounds (store : Blockstore) (memory : Memory) (content : Bytes) :
    Nat → Nat → Bytes → List Round
  | 0, _, _ => []
  | count + 1, index, old =>
      let size := store.blocksize
      let chunk := (content.drop (index * size)).take size
      let buffer := chunk ++ old.drop chunk.length
      let readbytes :=
        if chunk.length < size then
          absInt ((content.length + 2 ^ 32 - index * size % 2 ^ 32) % 2 ^ 32)
        else size
      let hashed :=
        if chunk.length < size then buffer.take readbytes
        else cString (buffer ++ memory.behind index)
      ⟨index, store.idOf hashed, buffer.take readbytes⟩ ::
        store.rounds memory content count (index + 1) buffer

/-- Run rounds one after the other, up to the first that fails. -/
def putRounds (store : Blockstore) (direct : Nat) (header : FilePath) :
    OutStream → List Round → Storage Bool
  | _, [] => return true
  | stream, round :: rest => do
      if ← store.putBlock header stream round.id round.bytes then
        store.putRounds direct header (stream.write direct (round.id.take hashSize)) rest
      else return false

/-- The loop runs its rounds. -/
theorem storeBlocks_eq_putRounds (memory : Memory) (content : Bytes) (header : FilePath)
    (count index : Nat) (stream : OutStream) (old : Bytes) :
    store.storeBlocks memory content header count index stream old =
      store.putRounds memory.direct header stream
        (store.rounds memory content count index old) := by
  induction count generalizing index stream old with
  | zero => rfl
  | succ count ih => simp only [storeBlocks, rounds, putRounds, ih, idOf]

/-- There are as many rounds as were asked for. -/
@[simp] theorem length_rounds (memory : Memory) (content : Bytes) (count index : Nat)
    (old : Bytes) : (store.rounds memory content count index old).length = count := by
  induction count generalizing index old with
  | zero => rfl
  | succ count ih => rw [rounds, List.length_cons, ih]

/-- A round uses the hash of something as the id. -/
theorem hexId_of_mem_rounds (memory : Memory) (content : Bytes) (count index : Nat)
    (old : Bytes) : ∀ round ∈ store.rounds memory content count index old, HexId round.id := by
  induction count generalizing index old with
  | zero =>
      intro round hround
      simp [rounds] at hround
  | succ count ih =>
      intro round hround
      rw [rounds] at hround
      rcases List.mem_cons.mp hround with rfl | hround
      · exact store.hexId_idOf _
      · exact ih _ _ round hround

/-- The round of a block. -/
def blockRound (store : Blockstore) (memory : Memory) (content : Bytes) (index : Nat) : Round :=
  ⟨index, store.blockId memory content index, store.blockData content index⟩

/-- Below `2 ^ 32` bytes the rounds write the blocks of the file. -/
theorem rounds_eq {memory : Memory} {content : Bytes} {count index : Nat} {old : Bytes}
    (hsize : content.length < 2 ^ 32) (hbig : store.blocksize < content.length)
    (hcount : index + count ≤ content.length / store.blocksize + 1)
    (hold : old.length ≤ store.blocksize) :
    store.rounds memory content count index old =
      (List.range' index count).map (store.blockRound memory content) := by
  induction count generalizing index old with
  | zero => rfl
  | succ count ih =>
      have hindex := rightRound_of_lt hsize hbig (show index ≤ _ by omega)
      have hbuffer : (store.blockData content index ++
          old.drop (store.blockData content index).length).length ≤ store.blocksize := by
        rw [List.length_append, List.length_drop, length_blockData]
        omega
      have hrest := ih (show index + 1 + count ≤ _ by omega) hbuffer
      have hround : store.rounds memory content (count + 1) index old =
          store.blockRound memory content index :: store.rounds memory content count (index + 1)
            (store.blockData content index ++
              old.drop (store.blockData content index).length) := by
        have hdata : (content.drop (index * store.blocksize)).take store.blocksize =
            store.blockData content index := rfl
        have hid : store.idOf (store.blockText memory content index) =
            store.blockId memory content index := rfl
        rw [rounds]
        simp only [hdata, written_eq_blockData hindex,
          hashed_eq_blockText memory content index hold, hid, blockRound]
      rw [hround, hrest, List.range'_succ, List.map_cons]

/-! ## The header -/

/-- What a round does to the header with this id. -/
def Round.events (fid : Bytes) (round : Round) : List OutStream.Event :=
  (if round.id = fid then [.replace round.bytes] else []) ++ [.put round.id]

/-- What a round leaves in the header with this id, and in its stream. -/
def Round.addTo (direct : Nat) (fid : Bytes) (state : Bytes × OutStream) (round : Round) :
    Bytes × OutStream :=
  (round.events fid).foldl (OutStream.stepAtOnce (OutStream.flushes direct)) state

/-- What rounds leave there, one after the other. -/
def headerAfter (direct : Nat) (fid : Bytes) (rounds : List Round) (state : Bytes × OutStream) :
    Bytes × OutStream :=
  rounds.foldl (Round.addTo direct fid) state

/-- A round that has the id replaces the header by its block and what waits in the stream. Any
round adds its id. -/
theorem Round.addTo_eq (direct : Nat) (fid text : Bytes) (stream : OutStream) (round : Round) :
    round.addTo direct fid (text, stream) =
      (overlay (if round.id = fid then overlay round.bytes stream.position stream.waiting else text)
        stream.length round.id, stream.write direct round.id) := by
  by_cases hown : round.id = fid
  · simp only [Round.addTo, Round.events, if_pos hown]
    rfl
  · simp only [Round.addTo, Round.events, if_neg hown]
    rfl

/-- The bytes that rounds leave in the header are those that are there when the stream is
closed. -/
theorem headerAfter_eq_settled (direct : Nat) (fid : Bytes) (rounds : List Round) (text : Bytes)
    (stream : OutStream) :
    (headerAfter direct fid rounds (OutStream.settled (text, stream), stream)).1 =
      OutStream.settled ((rounds.flatMap (Round.events fid)).foldl
        (OutStream.step (OutStream.flushes direct)) (text, stream)) := by
  have hfold : headerAfter direct fid rounds (OutStream.settled (text, stream), stream) =
      (rounds.flatMap (Round.events fid)).foldl
        (OutStream.stepAtOnce (OutStream.flushes direct))
          (OutStream.settled (text, stream), stream) := List.foldl_flatMap.symm
  rw [hfold, ← OutStream.settled_run (OutStream.flushes direct) (text, stream)]

/-- One round writes its block and then its id. -/
theorem run_putBlock {world : World} {fid id written : Bytes} (hsound : Sound store world.tree)
    (hfid : HexId fid) (hid : HexId id) (hwritten : store.view world.tree fid = some written)
    (stream : OutStream) (bytes : Bytes) :
    ∃ after, (store.putBlock (store.uniqueDir ++ shard fid) stream id bytes).run world =
        .ok true after ∧
      Now store world.tree after.tree (setId (setId (store.view world.tree) id (some bytes)) fid
        (some (overlay (if id = fid then overlay bytes stream.position stream.waiting else written)
          stream.length id))) := by
  obtain ⟨opened, hopened, hnow1⟩ := run_openBlock_id hsound hid
  obtain ⟨filled, hfilled, hnow2⟩ := run_writeAt_id hnow1.sound hid
    (by rw [hnow1.view _ hid, setId_same]) 0 bytes
  rw [overlay_nil] at hnow2
  have hchain := hnow1.set hnow2
  rw [setId_setId] at hchain
  have htake : id.take hashSize = id := List.take_of_length_le hid.length.le
  by_cases heq : id = fid
  · -- the block is the header itself
    subst heq
    obtain ⟨settled, hsettled, hnow3⟩ := run_writeAt_id hchain.sound hid
      (by rw [hchain.view _ hid, setId_same]) stream.position stream.waiting
    have hsame := hchain.set hnow3
    obtain ⟨listed, hlisted, hnow4⟩ := run_writeAt_id hsame.sound hid
      (by rw [hsame.view _ hid, setId_same]) stream.length id
    refine ⟨listed, ?_, ?_⟩
    · simp only [putBlock, EStateM.run_bind, run_pathText hid, hopened, hfilled, if_true, htake,
        hsettled, hlisted, EStateM.run_pure]
    · rw [if_pos rfl]
      exact setId_setId (setId (store.view world.tree) id (some bytes)) id _ _ ▸ hsame.set hnow4
  · have hheader : store.view filled.tree fid = some written := by
      rw [hchain.view _ hfid, setId_other _ _ (Ne.symm heq), hwritten]
    obtain ⟨listed, hlisted, hnow3⟩ := run_writeAt_id hchain.sound hfid hheader stream.length id
    refine ⟨listed, ?_, ?_⟩
    · simp only [putBlock, EStateM.run_bind, run_pathText hid, hopened, hfilled,
        if_neg (uniqueFile_ne heq), htake, hlisted, EStateM.run_pure]
    · rw [if_neg heq]
      exact hchain.set hnow3

/-- All rounds run, the header holds what they leave in it, and every block is there. -/
theorem run_putRounds {world : World} {direct : Nat} {fid written : Bytes} {stream : OutStream}
    {rounds : List Round} (hsound : Sound store world.tree) (hfid : HexId fid)
    (hids : ∀ round ∈ rounds, HexId round.id)
    (hwritten : store.view world.tree fid = some written) :
    ∃ after, (store.putRounds direct (store.uniqueDir ++ shard fid) stream rounds).run world =
        .ok true after ∧
      Sound store after.tree ∧
      store.view after.tree fid = some (headerAfter direct fid rounds (written, stream)).1 ∧
      ∀ id, HexId id → (store.view world.tree id ≠ none ∨ ∃ round ∈ rounds, round.id = id) →
        store.view after.tree id ≠ none := by
  induction rounds generalizing world written stream with
  | nil => exact ⟨world, rfl, hsound, hwritten, fun id _ hid => by simpa using hid⟩
  | cons round rounds ih =>
      have hid := hids round List.mem_cons_self
      have htake : round.id.take hashSize = round.id := List.take_of_length_le hid.length.le
      obtain ⟨middle, hmiddle, hnow⟩ := run_putBlock hsound hfid hid hwritten stream round.bytes
      obtain ⟨after, hafter, hlast, hheader, hthere⟩ := ih hnow.sound
        (fun other hother => hids other (List.mem_cons_of_mem _ hother))
        (by rw [hnow.view _ hfid, setId_same])
      refine ⟨after, ?_, hlast, ?_, fun id hexid hid' => hthere id hexid ?_⟩
      · simp only [putRounds, EStateM.run_bind, hmiddle, if_true, htake]
        exact hafter
      · rw [hheader, headerAfter, headerAfter, List.foldl_cons, Round.addTo_eq]
      · rw [hnow.view _ hexid]
        by_cases hheaderId : id = fid
        · simp [hheaderId]
        by_cases hround : id = round.id
        · rw [setId_other _ _ hheaderId, hround, setId_same]
          simp
        rw [setId_other _ _ hheaderId, setId_other _ _ hround]
        refine hid'.imp_right fun hmem => ?_
        obtain ⟨other, hother, heq⟩ := hmem
        rcases List.mem_cons.mp hother with rfl | hother
        · exact absurd heq.symm hround
        · exact ⟨other, hother, heq⟩

/-- Further rounds. -/
theorem headerAfter_append (direct : Nat) (fid : Bytes) (rounds later : List Round)
    (state : Bytes × OutStream) :
    headerAfter direct fid (rounds ++ later) state =
      headerAfter direct fid later (headerAfter direct fid rounds state) := List.foldl_append

/-- The ids are written to the stream, whatever happens to the header. -/
theorem headerAfter_stream (direct : Nat) (fid : Bytes) (rounds : List Round) (text : Bytes)
    (stream : OutStream) :
    (headerAfter direct fid rounds (text, stream)).2 =
      (rounds.map Round.id).foldl (OutStream.write direct) stream := by
  induction rounds generalizing text stream with
  | nil => rfl
  | cons round rounds ih =>
      rw [headerAfter, List.foldl_cons, Round.addTo_eq, List.map_cons, List.foldl_cons]
      exact ih _ _

/-- Ids of one length take up that much space each. -/
theorem length_flatten_ids {ids : Nat → Bytes} (h : ∀ index, (ids index).length = hashSize)
    (indices : List Nat) : (indices.map ids).flatten.length = hashSize * indices.length := by
  induction indices with
  | nil => rfl
  | cons index indices ih =>
      rw [List.map_cons, List.flatten_cons, List.length_append, h, ih, List.length_cons,
        Nat.mul_add, Nat.mul_one, Nat.add_comm]

/-- The number of bytes of a header that have reached the file when the block with this number is
written: the buffer takes the length and 64 ids, and then 64 ids at a time. -/
def flushed (index : Nat) : Nat :=
  if index < 64 then 0 else 4 + hashSize * (index / 64 * 64)

/-- No more has reached the file than was written. -/
theorem flushed_le (index : Nat) : flushed index ≤ 4 + hashSize * index := by
  rw [flushed]
  split
  · exact Nat.zero_le _
  · exact Nat.add_le_add_left (Nat.mul_le_mul_left _ (Nat.div_mul_le_self index 64)) 4

/-- The stream of a header after the length and these ids. -/
theorem stream_ids {direct : Nat} (hdirect : 128 < direct) {ids : Nat → Bytes}
    (hids : ∀ index, (ids index).length = hashSize) {text : Bytes} (htext : text.length = 4)
    (count : Nat) :
    ((List.range' 0 count).map ids).foldl (OutStream.write direct)
        (OutStream.opened.write direct text) =
      ⟨flushed count, (text ++ ((List.range' 0 count).map ids).flatten).drop (flushed count)⟩ := by
  induction count with
  | zero =>
      have hwaits : OutStream.flushes direct OutStream.opened text = false :=
        decide_eq_false (by rw [htext]; simp [OutStream.opened, OutStream.capacity]; omega)
      rw [List.range'_zero, List.map_nil, List.foldl_nil, List.flatten_nil, List.append_nil,
        OutStream.write, hwaits]
      rfl
  | succ count ih =>
      have hlength : (text ++ ((List.range' 0 count).map ids).flatten).length = 4 + 128 * count := by
        rw [List.length_append, htext, length_flatten_ids hids, List.length_range']
      have hle : flushed count ≤ 4 + 128 * count := flushed_le count
      have hflushes : OutStream.flushes direct ⟨flushed count,
          (text ++ ((List.range' 0 count).map ids).flatten).drop (flushed count)⟩ (ids count) =
            decide (count % 64 = 63) := by
        rw [OutStream.flushes, hids, List.length_drop, hlength, flushed]
        refine decide_eq_decide.mpr ?_
        simp only [OutStream.capacity, hashSize]
        split <;> omega
      rw [List.range'_1_concat, Nat.zero_add, List.map_append, List.foldl_append, ih,
        List.map_singleton, List.foldl_cons, List.foldl_nil, OutStream.write, hflushes,
        List.flatten_append, List.flatten_singleton, ← List.append_assoc]
      by_cases hlast : count % 64 = 63
      · -- the buffer has no room for this id
        have hnext : flushed (count + 1) = 4 + 128 * count + 128 := by
          rw [flushed, if_neg (by omega)]
          simp only [hashSize]
          omega
        have hall : (text ++ ((List.range' 0 count).map ids).flatten ++ ids count).length =
            4 + 128 * count + 128 := by rw [List.length_append, hlength, hids]
        have hposition : flushed count + (4 + 128 * count - flushed count) + 128 =
            4 + 128 * count + 128 := by omega
        rw [decide_eq_true hlast, if_pos rfl, hnext, List.drop_eq_nil_of_le hall.le,
          OutStream.flush, OutStream.length, hids, List.length_drop, hlength, hposition]
      · have hnext : flushed (count + 1) = flushed count := by
          rw [flushed, flushed]
          split <;> split <;> simp only [hashSize] <;> omega
        have hdrop : (text ++ ((List.range' 0 count).map ids).flatten ++ ids count).drop
            (flushed count) = (text ++ ((List.range' 0 count).map ids).flatten).drop
              (flushed count) ++ ids count :=
          List.drop_append_of_le_length (hle.trans hlength.ge)
        rw [decide_eq_false hlast, if_neg Bool.false_ne_true, hnext, OutStream.keep, hdrop]

/-- The last number with a property. -/
theorem getLast?_filter_range {p : Nat → Bool} {count index : Nat}
    (h : ((List.range' 0 count).filter p).getLast? = some index) :
    index < count ∧ p index = true ∧ ∀ later, index < later → later < count → p later = false := by
  induction count with
  | zero => simp at h
  | succ count ih =>
      rw [List.range'_1_concat, List.filter_append, Nat.zero_add] at h
      by_cases hlast : p count = true
      · obtain rfl : count = index := by simpa [hlast] using h
        exact ⟨Nat.lt_succ_self _, hlast, fun later hlt hle => by omega⟩
      · rw [List.filter_singleton, eq_false_of_ne_true hlast, cond_false, List.append_nil] at h
        obtain ⟨hlt, hindex, hlater⟩ := ih h
        refine ⟨Nat.lt_succ_of_lt hlt, hindex, fun later hgt hle => ?_⟩
        rcases Nat.lt_or_ge later count with hbefore | hafter
        · exact hlater later hgt hbefore
        · obtain rfl : later = count := by omega
          exact eq_false_of_ne_true hlast

section Headers

variable {direct : Nat} {fid : Bytes} {round : Nat → Round}

/-- The header after rounds of which at most the first one has its id. -/
theorem headerAfter_consecutive {start : Nat}
    (hids : ∀ index, (round index).id.length = hashSize) (text : Bytes) {stream : OutStream}
    (hstream : stream.length = 4 + hashSize * start) {base : Bytes}
    (hbase : (if (round start).id = fid then
      overlay (round start).bytes stream.position stream.waiting else text) = base) (count : Nat)
    (hother : ∀ index, start < index → index ≤ start + count → (round index).id ≠ fid) :
    (headerAfter direct fid ((List.range' start (count + 1)).map round) (text, stream)).1 =
      padTo (4 + hashSize * start) base ++
        ((List.range' start (count + 1)).map fun index => (round index).id).flatten ++
        base.drop (4 + hashSize * (start + (count + 1))) := by
  induction count with
  | zero =>
      have hnext : 4 + hashSize * start + (round start).id.length =
          4 + hashSize * (start + (0 + 1)) := by
        rw [hids, Nat.zero_add, Nat.mul_add, Nat.mul_one, Nat.add_assoc]
      have hrange : List.range' start (0 + 1) = [start] := rfl
      rw [hrange, List.map_singleton, List.map_singleton, List.flatten_singleton, headerAfter,
        List.foldl_cons, List.foldl_nil, Round.addTo_eq, hbase, hstream, overlay_eq_padTo, hnext]
  | succ count ih =>
      have hlast := hother (start + (count + 1)) (by omega) le_rfl
      have hfront := ih fun index hlt hle => hother index hlt (by omega)
      have hlength : (padTo (4 + hashSize * start) base ++
          ((List.range' start (count + 1)).map fun index => (round index).id).flatten).length =
          4 + hashSize * (start + (count + 1)) := by
        rw [List.length_append, length_padTo, length_flatten_ids hids, List.length_range',
          Nat.add_assoc, ← Nat.mul_add]
      have hrange : List.range' start (count + 1 + 1) =
          List.range' start (count + 1) ++ [start + (count + 1)] := List.range'_1_concat
      have hnext : 4 + hashSize * (start + (count + 1)) + hashSize =
          4 + hashSize * (start + (count + 1 + 1)) := by
        rw [Nat.add_assoc, ← Nat.mul_succ]
        rfl
      have hwritten : (headerAfter direct fid ((List.range' start (count + 1)).map round)
          (text, stream)).2.length = 4 + hashSize * (start + (count + 1)) := by
        have hnames : ((List.range' start (count + 1)).map round).map Round.id =
            (List.range' start (count + 1)).map fun index => (round index).id := List.map_map
        rw [headerAfter_stream, OutStream.length_writes, hstream, hnames, length_flatten_ids hids,
          List.length_range', Nat.add_assoc, ← Nat.mul_add]
      generalize hstate : headerAfter direct fid ((List.range' start (count + 1)).map round)
        (text, stream) = state at hfront hwritten
      obtain ⟨front, later⟩ := state
      obtain rfl : front = _ := hfront
      rw [hrange, List.map_append, List.map_singleton, headerAfter_append, hstate, headerAfter,
        List.foldl_cons, List.foldl_nil, Round.addTo_eq, if_neg hlast, hwritten,
        overlay_append hlength, hids, List.drop_drop, hnext, List.map_append, List.flatten_append,
        List.map_singleton, List.flatten_singleton]
      simp only [List.append_assoc]

/-- The header after rounds of which only the first one has its id. -/
theorem headerAfter_of_own {start : Nat} (hids : ∀ index, (round index).id.length = hashSize)
    (text : Bytes) {stream : OutStream} (hstream : stream.length = 4 + hashSize * start)
    (hown : (round start).id = fid) (count : Nat)
    (hother : ∀ index, start < index → index ≤ start + count → (round index).id ≠ fid) :
    (headerAfter direct fid ((List.range' start (count + 1)).map round) (text, stream)).1 =
      padTo stream.position (round start).bytes ++ stream.waiting ++
        ((List.range' start (count + 1)).map fun index => (round index).id).flatten ++
        (round start).bytes.drop (4 + hashSize * (start + (count + 1))) := by
  have hend : stream.position + stream.waiting.length ≤ 4 + hashSize * (start + (count + 1)) :=
    hstream.le.trans (Nat.add_le_add_left (Nat.mul_le_mul_left _ (Nat.le_add_right _ _)) 4)
  rw [headerAfter_consecutive hids text hstream (if_pos hown) count hother, ← hstream,
    OutStream.length, padTo_overlay_end, drop_overlay hend]

variable {text : Bytes} {count : Nat}

/-- Without a block that has the id of the file, the header holds the ids behind the first text. -/
theorem headerAfter_of_none (hids : ∀ index, (round index).id.length = hashSize)
    (htext : text.length = 4) (hother : ∀ index, index ≤ count → (round index).id ≠ fid) :
    (headerAfter direct fid ((List.range' 0 (count + 1)).map round)
        (text, OutStream.opened.write direct text)).1 =
      text ++ ((List.range' 0 (count + 1)).map fun index => (round index).id).flatten := by
  have hstream : (OutStream.opened.write direct text).length = 4 + hashSize * 0 := by
    rw [OutStream.length_write, htext]
    rfl
  have hdrop : text.drop (4 + hashSize * (0 + (count + 1))) = [] :=
    List.drop_eq_nil_of_le (by omega)
  rw [headerAfter_consecutive hids text hstream (if_neg (hother 0 (Nat.zero_le _))) count
    fun index _ hle => hother index (by omega), hdrop, List.append_nil, Nat.mul_zero,
    padTo_length htext]

/-- The last block that has the id of the file stands in the header as far as the stream does not
write over it. -/
theorem headerAfter_of_last (hdirect : 128 < direct)
    (hids : ∀ index, (round index).id.length = hashSize) (htext : text.length = 4) {own : Nat}
    (hle : own ≤ count) (hown : (round own).id = fid)
    (hother : ∀ index, own < index → index ≤ count → (round index).id ≠ fid) :
    (headerAfter direct fid ((List.range' 0 (count + 1)).map round)
        (text, OutStream.opened.write direct text)).1 =
      padTo (flushed own) (round own).bytes ++
        (text ++ ((List.range' 0 (count + 1)).map fun index => (round index).id).flatten).drop
          (flushed own) ++ (round own).bytes.drop (4 + hashSize * (count + 1)) := by
  obtain ⟨more, rfl⟩ : ∃ more, count = own + more := ⟨count - own, by omega⟩
  have hsplit : List.range' 0 (own + more + 1) =
      List.range' 0 own ++ List.range' own (more + 1) := by
    rw [Nat.add_assoc, ← List.range'_append_1, Nat.zero_add]
  have hnames : ((List.range' 0 own).map round).map Round.id =
      (List.range' 0 own).map fun index => (round index).id := List.map_map
  -- the stream when the block is written
  have hstream := headerAfter_stream direct fid ((List.range' 0 own).map round) text
    (OutStream.opened.write direct text)
  rw [hnames, stream_ids hdirect hids htext] at hstream
  have hlength : (text ++ ((List.range' 0 own).map fun index => (round index).id).flatten).length =
      4 + hashSize * own := by
    rw [List.length_append, htext, length_flatten_ids hids, List.length_range']
  have hflushed := (flushed_le own).trans hlength.ge
  generalize hstate : headerAfter direct fid ((List.range' 0 own).map round)
    (text, OutStream.opened.write direct text) = state at hstream
  obtain ⟨header, stream⟩ := state
  obtain rfl : stream = _ := hstream
  have hwritten : (⟨flushed own, (text ++ ((List.range' 0 own).map fun index =>
      (round index).id).flatten).drop (flushed own)⟩ : OutStream).length = 4 + hashSize * own := by
    rw [OutStream.length, List.length_drop, Nat.add_sub_cancel' hflushed, hlength]
  have hback : (headerAfter direct fid ((List.range' own (more + 1)).map round) (header, _)).1 = _ :=
    headerAfter_of_own hids header hwritten hown more hother
  rw [hsplit, List.map_append, headerAfter_append, hstate, hback, List.map_append,
    List.flatten_append, ← List.append_assoc text, List.drop_append_of_le_length hflushed,
    Nat.add_assoc own]
  simp only [List.append_assoc]

/-- The last block that has the id of the file, if there is one. -/
theorem last_own_cases (fid : Bytes) (round : Nat → Round) (count : Nat) :
    (((List.range' 0 (count + 1)).filter fun index => (round index).id = fid).getLast? = none ∧
        ∀ index, index ≤ count → (round index).id ≠ fid) ∨
      ∃ own, ((List.range' 0 (count + 1)).filter fun index => (round index).id = fid).getLast? =
          some own ∧ own ≤ count ∧ (round own).id = fid ∧
        ∀ index, own < index → index ≤ count → (round index).id ≠ fid := by
  cases hlast :
      ((List.range' 0 (count + 1)).filter fun index => (round index).id = fid).getLast? with
  | none =>
      refine Or.inl ⟨rfl, fun index hle heq => ?_⟩
      rw [List.getLast?_eq_none_iff, List.filter_eq_nil_iff] at hlast
      exact hlast index (by rw [List.mem_range'_1]; omega) (by simpa using heq)
  | some own =>
      obtain ⟨hlt, hown, hlater⟩ := getLast?_filter_range hlast
      exact Or.inr ⟨own, rfl, Nat.le_of_lt_succ hlt, by simpa using hown, fun index hgt hle => by
        simpa using hlater index hgt (by omega)⟩

/-- When the ids of all rounds follow the text in the header. -/
theorem headerAfter_eq_iff (hdirect : 128 < direct)
    (hids : ∀ index, (round index).id.length = hashSize) (htext : text.length = 4) (count : Nat) :
    (headerAfter direct fid ((List.range' 0 (count + 1)).map round)
        (text, OutStream.opened.write direct text)).1 =
        text ++ ((List.range' 0 (count + 1)).map fun index => (round index).id).flatten ↔
      ∀ own ∈ ((List.range' 0 (count + 1)).filter fun index => (round index).id = fid).getLast?,
        padTo (flushed own) (round own).bytes =
            (text ++ ((List.range' 0 (count + 1)).map fun index => (round index).id).flatten).take
              (flushed own) ∧
          (round own).bytes.length ≤ 4 + hashSize * (count + 1) := by
  rcases last_own_cases fid round count with ⟨hlast, hother⟩ | ⟨own, hlast, hle, hown, hother⟩
  · rw [hlast, headerAfter_of_none hids htext hother]
    simp
  · obtain ⟨whole, hwhole⟩ : ∃ whole, text ++
        ((List.range' 0 (count + 1)).map fun index => (round index).id).flatten = whole := ⟨_, rfl⟩
    have hlength : whole.length = 4 + hashSize * (count + 1) := by
      rw [← hwhole, List.length_append, htext, length_flatten_ids hids, List.length_range']
    have hflushed : flushed own ≤ whole.length := (flushed_le own).trans
      (hlength ▸ Nat.add_le_add_left (Nat.mul_le_mul_left _ (Nat.le_succ_of_le hle)) 4)
    have hfront : (padTo (flushed own) (round own).bytes).length =
        (whole.take (flushed own)).length := by
      rw [length_padTo, List.length_take, Nat.min_eq_left hflushed]
    rw [hlast, headerAfter_of_last hdirect hids htext hle hown hother, hwhole, List.append_assoc]
    simp only [Option.mem_def, Option.some.injEq, forall_eq']
    constructor
    · intro h
      obtain ⟨hsame, hrest⟩ :=
        List.append_inj (h.trans (List.take_append_drop (flushed own) whole).symm) hfront
      rw [List.append_right_eq_self, List.drop_eq_nil_iff] at hrest
      exact ⟨hsame, hrest⟩
    · rintro ⟨hsame, hshort⟩
      rw [hsame, List.drop_eq_nil_of_le hshort, List.append_nil, List.take_append_drop]

/-- When the header still begins with the text. -/
theorem padTo_headerAfter_iff (hdirect : 128 < direct)
    (hids : ∀ index, (round index).id.length = hashSize) (htext : text.length = 4) (count : Nat) :
    padTo 4 (headerAfter direct fid ((List.range' 0 (count + 1)).map round)
        (text, OutStream.opened.write direct text)).1 = text ↔
      ∀ own ∈ ((List.range' 0 (count + 1)).filter fun index => (round index).id = fid).getLast?,
        64 ≤ own → padTo 4 (round own).bytes = text := by
  have htake : text.take 4 = text := List.take_of_length_le htext.le
  rcases last_own_cases fid round count with ⟨hlast, hother⟩ | ⟨own, hlast, hle, hown, hother⟩
  · rw [hlast, headerAfter_of_none hids htext hother, padTo_append htext.ge, htake]
    simp
  · rw [hlast, headerAfter_of_last hdirect hids htext hle hown hother, List.append_assoc]
    simp only [Option.mem_def, Option.some.injEq, forall_eq']
    by_cases hearly : own < 64
    · -- the length still waits in the stream
      have hzero : flushed own = 0 := if_pos hearly
      have hnil : padTo 0 (round own).bytes = [] := List.take_zero
      rw [hzero, hnil, List.nil_append, List.drop_zero, List.append_assoc,
        padTo_append htext.ge, htake]
      exact iff_of_true rfl fun hlate => absurd hearly (not_lt.mpr hlate)
    · have hfour : 4 ≤ flushed own := by
        rw [flushed, if_neg hearly]
        exact Nat.le_add_right _ _
      rw [padTo_append (by rwa [length_padTo]), take_padTo hfour]
      exact ⟨fun h _ => h, fun h => h (not_lt.mp hearly)⟩

/-- How long the header can get. -/
theorem length_headerAfter_le (hdirect : 128 < direct)
    (hids : ∀ index, (round index).id.length = hashSize) (htext : text.length = 4) {bound : Nat}
    (hbound : 4 + hashSize * (count + 1) ≤ bound)
    (hbytes : ∀ index, (round index).bytes.length ≤ bound) :
    (headerAfter direct fid ((List.range' 0 (count + 1)).map round)
      (text, OutStream.opened.write direct text)).1.length ≤ bound := by
  have hwhole : (text ++
      ((List.range' 0 (count + 1)).map fun index => (round index).id).flatten).length =
        4 + hashSize * (count + 1) := by
    rw [List.length_append, htext, length_flatten_ids hids, List.length_range']
  rcases last_own_cases fid round count with ⟨-, hother⟩ | ⟨own, -, hle, hown, hother⟩
  · rw [headerAfter_of_none hids htext hother, hwhole]
    exact hbound
  · have hown' := hbytes own
    have hflushed : flushed own ≤ 4 + hashSize * (count + 1) := (flushed_le own).trans
      (Nat.add_le_add_left (Nat.mul_le_mul_left _ (Nat.le_succ_of_le hle)) 4)
    rw [headerAfter_of_last hdirect hids htext hle hown hother, List.length_append,
      List.length_append, length_padTo, List.length_drop, List.length_drop, hwhole]
    omega

end Headers

/-- The numbers of the blocks that have the id of the file itself. -/
def ownBlocks (store : Blockstore) (memory : Memory) (content : Bytes) : List Nat :=
  (store.blockIndices content).filter fun index =>
    store.blockId memory content index = store.idOf content

/-- The header of a file of more than one block after the loop of `store_file`. -/
def finished (store : Blockstore) (memory : Memory) (content : Bytes) : Bytes :=
  (headerAfter memory.direct (store.idOf content)
    ((store.blockIndices content).map (store.blockRound memory content))
    (uintBytes content.length, OutStream.opened.write memory.direct (uintBytes content.length))).1

section Calls

variable {world : World} {memory : Memory} {content : Bytes}

/-- `store_file` of a new file whose recorded length does not fit into a block: the header is
made, and then the rounds run. -/
theorem run_storeFile_rounds (hsound : Sound store world.tree) (memory : Memory)
    (hnew : store.view world.tree (store.idOf content) = none) {size : Nat}
    (hmod : content.length % 2 ^ 32 = size) (hbig : store.blocksize < size) {rounds : List Round}
    (hrounds : store.rounds memory content (size / store.blocksize + 1) 0
      (memory.buffer.take store.blocksize) = rounds) :
    ∃ sized after, Now store world.tree sized.tree (setId (store.view world.tree)
        (store.idOf content) (some (uintBytes size))) ∧
      (store.putRounds memory.direct (store.uniqueDir ++ shard (store.idOf content))
        (OutStream.opened.write memory.direct (uintBytes size)) rounds).run sized =
          .ok true after ∧
      (store.storeFile memory (some content)).run world =
        .ok (true, store.idOf content) after ∧
      store.view after.tree (store.idOf content) = some (headerAfter memory.direct
        (store.idOf content) rounds
          (uintBytes size, OutStream.opened.write memory.direct (uintBytes size))).1 ∧
      ∀ round ∈ rounds, store.view after.tree round.id ≠ none := by
  have hid := store.hexId_idOf content
  have hids : ∀ round ∈ rounds, HexId round.id := hrounds ▸ hexId_of_mem_rounds memory content _ _ _
  obtain ⟨sized, hsized, hfill⟩ := run_storeFile_header hsound memory hnew
  rw [hmod] at hsized
  obtain ⟨after, hafter, -, hheader, hthere⟩ := run_putRounds hsized.sound hid hids
    (by rw [hsized.view _ hid, setId_same])
  refine ⟨sized, after, hsized, hafter, hfill after ?_, hheader, fun round hround =>
    hthere _ (hids round hround) (Or.inr ⟨round, hround, rfl⟩)⟩
  simp only [fillHeader, hmod, if_neg (not_le.mpr hbig), storeBlocks_eq_putRounds, hrounds, hafter]

/-- The rounds of a file that is not inline. -/
theorem rounds_big (memory : Memory) (hsize : content.length < 2 ^ 32)
    (hbig : store.blocksize < content.length) {old : Bytes} (hold : old.length ≤ store.blocksize) :
    store.rounds memory content (content.length / store.blocksize + 1) 0 old =
      (store.blockIndices content).map (store.blockRound memory content) := by
  rw [rounds_eq hsize hbig (by omega) hold, blockIndices, if_neg (not_le.mpr hbig)]

/-- `store_file` of a new file of more than one block. -/
theorem run_storeFile_big (hsound : Sound store world.tree) (memory : Memory)
    (hnew : store.view world.tree (store.idOf content) = none)
    (hsize : content.length < 2 ^ 32) (hbig : store.blocksize < content.length) :
    ∃ sized after, Now store world.tree sized.tree (setId (store.view world.tree)
        (store.idOf content) (some (uintBytes content.length))) ∧
      (store.putRounds memory.direct (store.uniqueDir ++ shard (store.idOf content))
        (OutStream.opened.write memory.direct (uintBytes content.length))
        ((store.blockIndices content).map (store.blockRound memory content))).run sized =
          .ok true after ∧
      (store.storeFile memory (some content)).run world =
        .ok (true, store.idOf content) after ∧
      store.view after.tree (store.idOf content) = some (store.finished memory content) ∧
      ∀ index ∈ store.blockIndices content,
        store.view after.tree (store.blockId memory content index) ≠ none := by
  obtain ⟨sized, after, hsized, hrun, hstore, hheader, hthere⟩ :=
    run_storeFile_rounds hsound memory hnew (Nat.mod_eq_of_lt hsize) hbig
      (rounds_big memory hsize hbig (List.length_take_le store.blocksize memory.buffer))
  refine ⟨sized, after, hsized, hrun, hstore, hheader, fun index hindex => ?_⟩
  exact hthere (store.blockRound memory content index) (List.mem_map_of_mem hindex)

end Calls

/-! ## The recorded size -/

/-- A `uint` is read from at most four bytes. -/
theorem uintValue_lt {bytes : Bytes} {count : Nat} (h : bytes.length ≤ count) :
    uintValue bytes < 2 ^ (8 * count) := by
  induction bytes generalizing count with
  | nil => exact Nat.two_pow_pos _
  | cons byte bytes ih =>
      obtain ⟨count, rfl⟩ : ∃ more, count = more + 1 := ⟨count - 1, by simp at h; omega⟩
      have hrest := ih (Nat.le_of_succ_le_succ h)
      have hbyte := byte.toNat_lt
      have hvalue : uintValue (byte :: bytes) = byte.toNat + 2 ^ 8 * uintValue bytes := rfl
      have hpow : 2 ^ (8 * (count + 1)) = 2 ^ 8 * 2 ^ (8 * count) := by
        rw [← Nat.pow_add]
        congr 1
        omega
      rw [hvalue, hpow]
      omega

/-- Four bytes are those of the `uint` they hold. -/
theorem uintBytes_uintValue {bytes : Bytes} (h : bytes.length = 4) :
    uintBytes (uintValue bytes) = bytes := by
  match bytes, h with
  | [first, second, third, fourth], _ =>
      have hfirst := first.toNat_lt
      have hsecond := second.toNat_lt
      have hthird := third.toNat_lt
      have hfourth := fourth.toNat_lt
      simp only [uintBytes, uintValue, List.foldr_cons, List.foldr_nil, List.cons.injEq,
        ← UInt8.toNat_inj, UInt8.toNat_ofNat', and_true]
      omega

/-- Zero bytes behind the others do not change the `uint`. -/
theorem uintValue_append_zeros (bytes : Bytes) (count : Nat) :
    uintValue (bytes ++ List.replicate count 0) = uintValue bytes := by
  induction bytes with
  | nil =>
      induction count with
      | zero => rfl
      | succ count ih =>
          have hvalue : uintValue ([] ++ List.replicate (count + 1) 0) =
              2 ^ 8 * uintValue ([] ++ List.replicate count 0) := Nat.zero_add _
          rw [hvalue, ih]
          rfl
  | cons byte bytes ih =>
      have hvalue (rest : Bytes) : uintValue (byte :: rest) = byte.toNat + 2 ^ 8 * uintValue rest :=
        rfl
      rw [List.cons_append, hvalue, hvalue, ih]

/-- The number at the beginning of a header. -/
theorem uintValue_take_iff {number : Nat} (h : number < 2 ^ 32) (header : Bytes) :
    uintValue (header.take 4) = number ↔ padTo 4 header = uintBytes number := by
  have hpad : uintValue (padTo 4 header) = uintValue (header.take 4) := by
    rw [padTo, List.take_append, List.take_replicate, uintValue_append_zeros]
  constructor
  · intro hvalue
    rw [← hvalue, ← hpad, uintBytes_uintValue (length_padTo 4 header)]
  · intro hbytes
    rw [← hpad, hbytes, uintValue_uintBytes h]

/-- The numbers of the blocks of a file of more than one block. -/
theorem blockIndices_big {content : Bytes} (hbig : store.blocksize < content.length) :
    store.blockIndices content = List.range' 0 (content.length / store.blocksize + 1) :=
  if_neg (not_le.mpr hbig)

/-- A header of a file of more than one block is shorter than the file and its length. -/
theorem length_finished_lt (memory : Memory) {content : Bytes}
    (hbig : store.blocksize < content.length) :
    (store.finished memory content).length < 4 + content.length := by
  have hlarge := store.le_blocksize
  have hcount : content.length / store.blocksize ≤ content.length / 1024 :=
    Nat.div_le_div_left hlarge (by decide)
  have hspace : 4 + hashSize * (content.length / store.blocksize + 1) ≤ 3 + content.length := by
    simp only [hashSize]
    omega
  have hblocks : ∀ index, (store.blockRound memory content index).bytes.length ≤
      3 + content.length := by
    intro index
    rw [blockRound, store.length_blockData]
    omega
  rw [finished, blockIndices_big hbig]
  exact Nat.lt_of_le_of_lt (length_headerAfter_le memory.direct_gt
    (fun index => (store.hexId_blockId memory content index).length) rfl hspace hblocks) (by omega)

/-- `store_file` records the length of a new file, and keeps the bytes in the header exactly if
they fit into a block. -/
def RecordsSize (store : Blockstore) (memory : Memory) (content : Bytes) : Prop :=
  ∀ world after id, Sound store world.tree → store.view world.tree (store.idOf content) = none →
    (store.storeFile memory (some content)).run world = .ok (true, id) after →
    ∃ header, store.view after.tree id = some header ∧
      uintValue (header.take 4) = content.length ∧
      (header.drop 4 = content ↔ content.length ≤ store.blocksize)

/-- The last block that has the id of the file itself, if there is one, comes while the length of
the file still waits in the stream of the header, or it starts with the bytes of the length. -/
def KeepsSize (store : Blockstore) (memory : Memory) (content : Bytes) : Prop :=
  ∀ index ∈ (store.ownBlocks memory content).getLast?, 64 ≤ index →
    padTo 4 (store.blockData content index) = uintBytes content.length

/-- The finished header begins with the length exactly if the blocks keep it. -/
theorem padTo_finished_iff (memory : Memory) {content : Bytes}
    (hbig : store.blocksize < content.length) :
    padTo 4 (store.finished memory content) = uintBytes content.length ↔
      KeepsSize store memory content := by
  rw [finished, KeepsSize, ownBlocks, blockIndices_big hbig]
  exact padTo_headerAfter_iff memory.direct_gt
    (fun index => (store.hexId_blockId memory content index).length) rfl _

/-- The length is recorded if it is less than `2 ^ 32` and not written over. -/
theorem RecordsSize.of_keepsSize {memory : Memory} {content : Bytes}
    (hsize : content.length < 2 ^ 32) (hkeeps : KeepsSize store memory content) :
    RecordsSize store memory content := by
  intro world after id hsound hnew hrun
  have hmod : content.length % 2 ^ 32 = content.length := Nat.mod_eq_of_lt hsize
  rcases Nat.lt_or_ge store.blocksize content.length with hbig | hsmall
  · obtain ⟨-, last, -, -, hlast, hheader, -⟩ := run_storeFile_big hsound memory hnew hsize hbig
    rw [hlast] at hrun
    obtain ⟨heq, rfl⟩ := EStateM.Result.ok.inj hrun
    obtain rfl : store.idOf content = id := congrArg Prod.snd heq
    refine ⟨_, hheader, ?_, iff_of_false (fun hdrop => ?_) (not_le.mpr hbig)⟩
    · rw [uintValue_take_iff hsize]
      exact (padTo_finished_iff memory hbig).mpr hkeeps
    · have hlength := congrArg List.length hdrop
      have hshort := store.length_finished_lt memory hbig
      rw [List.length_drop] at hlength
      omega
  · obtain ⟨last, hlast, hnow⟩ := run_storeFile_inline hsound memory (by rwa [hmod]) hnew
    rw [hlast] at hrun
    obtain ⟨heq, rfl⟩ := EStateM.Result.ok.inj hrun
    obtain rfl : store.idOf content = id := congrArg Prod.snd heq
    rw [hmod] at hnow
    refine ⟨_, by rw [hnow.view _ (store.hexId_idOf content), setId_same], ?_,
      iff_of_true (List.drop_left' rfl) hsmall⟩
    have htake : (uintBytes content.length ++ content).take 4 = uintBytes content.length :=
      List.take_left' rfl
    rw [htake, uintValue_uintBytes hsize]

/-- A recorded length is less than `2 ^ 32`. -/
theorem RecordsSize.lt {memory : Memory} {content : Bytes} (h : RecordsSize store memory content) :
    content.length < 2 ^ 32 := by
  have hsound := store.empty_fresh.sound
  have hnew := store.empty_fresh.view_eq_none (store.idOf content)
  obtain ⟨after, hafter⟩ : ∃ after, (store.storeFile memory (some content)).run store.fresh =
      .ok (true, store.idOf content) after := by
    rcases Nat.lt_or_ge store.blocksize (content.length % 2 ^ 32) with hbig | hsmall
    · obtain ⟨-, last, -, -, hlast, -⟩ := run_storeFile_rounds hsound memory hnew rfl hbig rfl
      exact ⟨last, hlast⟩
    · obtain ⟨last, hlast, -⟩ := run_storeFile_inline hsound memory hsmall hnew
      exact ⟨last, hlast⟩
  obtain ⟨header, -, hvalue, -⟩ := h store.fresh after _ hsound hnew hafter
  rw [← hvalue]
  exact uintValue_lt (List.length_take_le 4 header)

/-- A recorded length was not written over. -/
theorem RecordsSize.keepsSize {memory : Memory} {content : Bytes}
    (h : RecordsSize store memory content) : KeepsSize store memory content := by
  intro index hown
  have hsize := h.lt
  have hbig : store.blocksize < content.length := by
    by_contra hsmall
    rw [ownBlocks, blockIndices, if_pos (not_lt.mp hsmall)] at hown
    simp at hown
  have hsound := store.empty_fresh.sound
  have hnew := store.empty_fresh.view_eq_none (store.idOf content)
  obtain ⟨-, after, -, -, hafter, hheader, -⟩ := run_storeFile_big hsound memory hnew hsize hbig
  obtain ⟨header, hview, hvalue, -⟩ := h store.fresh after _ hsound hnew hafter
  obtain rfl := Option.some.inj (hheader.symm.trans hview)
  rw [uintValue_take_iff hsize] at hvalue
  exact (padTo_finished_iff memory hbig).mp hvalue index hown

/-- The recorded size is the real one exactly for files of less than `2 ^ 32` bytes whose header
no block of theirs replaces by something else. -/
theorem size_recorded_iff (store : Blockstore) (memory : Memory) (content : Bytes) :
    RecordsSize store memory content ↔
      content.length < 2 ^ 32 ∧ KeepsSize store memory content :=
  ⟨fun h => ⟨h.lt, h.keepsSize⟩, fun h => .of_keepsSize h.1 h.2⟩

/-- Of a file of `2 ^ 32` zero bytes the length zero is recorded. -/
theorem size_not_recorded_zeros :
    ¬ RecordsSize zeroStore zeroMemory (zeros (2 ^ 32)) := by
  intro h
  have hsize := h.lt
  rw [zeros, List.length_replicate] at hsize
  exact absurd hsize (lt_irrefl _)

/-! ## The finished header -/

/-- `store_file` cuts the file into blocks: no 32-bit number wraps around, the loop runs once for
each block and writes exactly its bytes, and the finished header is the length followed by the ids
of the blocks, all of which are there. -/
structure Partitions (store : Blockstore) (memory : Memory) (content : Bytes) : Prop where
  noWrap : ∀ index ≤ content.length / store.blocksize,
    index * store.blocksize % 2 ^ 32 = index * store.blocksize ∧
      (content.length + 2 ^ 32 - index * store.blocksize % 2 ^ 32) % 2 ^ 32 =
        content.length - index * store.blocksize
  loop : ∀ header stream old, old.length ≤ store.blocksize →
    store.storeBlocks memory content header (content.length / store.blocksize + 1) 0 stream old =
      store.putRounds memory.direct header stream
        ((List.range (content.length / store.blocksize + 1)).map fun index =>
          ⟨index, store.blockId memory content index,
            (content.drop (index * store.blocksize)).take store.blocksize⟩)
  whole : ((List.range (content.length / store.blocksize + 1)).map fun index =>
    (content.drop (index * store.blocksize)).take store.blocksize).flatten = content
  full : ∀ index < content.length / store.blocksize,
    ((content.drop (index * store.blocksize)).take store.blocksize).length = store.blocksize
  last : ((content.drop (content.length / store.blocksize * store.blocksize)).take
    store.blocksize).length = content.length % store.blocksize
  stores : ∀ world, Sound store world.tree → store.view world.tree (store.idOf content) = none →
    ∃ started after, ∃ ids : Nat → Bytes,
      Now store world.tree started.tree (setId (store.view world.tree) (store.idOf content)
        (some (uintBytes content.length))) ∧
      (store.putRounds memory.direct (store.uniqueDir ++ shard (store.idOf content))
          (OutStream.opened.write memory.direct (uintBytes content.length))
          ((List.range (content.length / store.blocksize + 1)).map fun index =>
            ⟨index, ids index, (content.drop (index * store.blocksize)).take store.blocksize⟩)).run
        started = .ok true after ∧
      (store.storeFile memory (some content)).run world = .ok (true, store.idOf content) after ∧
      store.view after.tree (store.idOf content) = some (uintBytes content.length ++
        ((List.range (content.length / store.blocksize + 1)).map ids).flatten) ∧
      ∀ index ≤ content.length / store.blocksize,
        ids index = store.blockId memory content index ∧ HexId (ids index) ∧
          store.view after.tree (ids index) ≠ none

/-- The last block that has the id of the file itself, if there is one, starts with the bytes of
the length and the ids that have left the stream of the header by then, and it does not reach
beyond the space of all the ids. -/
def KeepsHeader (store : Blockstore) (memory : Memory) (content : Bytes) : Prop :=
  ∀ own ∈ (store.ownBlocks memory content).getLast?,
    padTo (flushed own) (store.blockData content own) = (uintBytes content.length ++
        ((store.blockIndices content).map (store.blockId memory content)).flatten).take
          (flushed own) ∧
      (store.blockData content own).length ≤
        4 + hashSize * (content.length / store.blocksize + 1)

/-- The finished header is right exactly if no block of the file replaces it by something else. -/
theorem finished_eq_iff (memory : Memory) {content : Bytes}
    (hbig : store.blocksize < content.length) :
    store.finished memory content = uintBytes content.length ++
        ((store.blockIndices content).map (store.blockId memory content)).flatten ↔
      KeepsHeader store memory content := by
  rw [finished, KeepsHeader, ownBlocks, blockIndices_big hbig]
  exact headerAfter_eq_iff memory.direct_gt
    (fun index => (store.hexId_blockId memory content index).length) rfl
    (content.length / store.blocksize)

/-- A file that is cut into blocks keeps its header. -/
theorem Partitions.keepsHeader {memory : Memory} {content : Bytes}
    (h : Partitions store memory content) (hbig : store.blocksize < content.length)
    (hsize : content.length < 2 ^ 32) : KeepsHeader store memory content := by
  have hindices : store.blockIndices content =
      List.range' 0 (content.length / store.blocksize + 1) := if_neg (not_le.mpr hbig)
  have hsound := store.empty_fresh.sound
  have hnew := store.empty_fresh.view_eq_none (store.idOf content)
  obtain ⟨-, after, -, -, hafter, hview, -⟩ := run_storeFile_big hsound memory hnew hsize hbig
  obtain ⟨-, last, ids, -, -, hlast, hview', hids⟩ := h.stores store.fresh hsound hnew
  obtain ⟨-, rfl⟩ := EStateM.Result.ok.inj (hafter.symm.trans hlast)
  have hmap : (List.range (content.length / store.blocksize + 1)).map ids =
      (store.blockIndices content).map (store.blockId memory content) := by
    rw [hindices, List.range_eq_range']
    refine List.map_congr_left fun index hindex => (hids index ?_).1
    rw [List.mem_range'_1] at hindex
    omega
  rw [hview, hmap] at hview'
  exact (finished_eq_iff memory hbig).mp (Option.some.inj hview')

/-- A file that keeps its header is cut into blocks. -/
theorem KeepsHeader.partitions {memory : Memory} {content : Bytes}
    (h : KeepsHeader store memory content) (hbig : store.blocksize < content.length)
    (hsize : content.length < 2 ^ 32) : Partitions store memory content := by
  have hindices : store.blockIndices content =
      List.range' 0 (content.length / store.blocksize + 1) := if_neg (not_le.mpr hbig)
  refine ⟨fun index hindex => ?_, fun header stream old hold => ?_, ?_,
    fun index hindex => length_blockData_full hindex, ?_, fun world hsound hnew => ?_⟩
  · have hle : index * store.blocksize ≤ content.length :=
      (Nat.mul_le_mul_right _ hindex).trans (Nat.div_mul_le_self _ _)
    rw [Nat.mod_eq_of_lt (show index * store.blocksize < 2 ^ 32 by omega)]
    omega
  · rw [storeBlocks_eq_putRounds, rounds_big memory hsize hbig hold, hindices,
      List.range_eq_range']
    rfl
  · rw [List.range_eq_range']
    exact store.flatten_blocks content
  · have hrest := Nat.mod_lt content.length store.blocksize_pos
    have hsplit := Nat.div_add_mod' content.length store.blocksize
    rw [List.length_take, List.length_drop]
    omega
  · obtain ⟨started, after, hstarted, hrounds, hafter, hview, hthere⟩ :=
      run_storeFile_big hsound memory hnew hsize hbig
    rw [hindices, ← List.range_eq_range'] at hrounds
    refine ⟨started, after, store.blockId memory content, hstarted, hrounds, hafter, ?_,
      fun index hindex => ⟨rfl, store.hexId_blockId memory content index, hthere index ?_⟩⟩
    · rw [hview, (finished_eq_iff memory hbig).mpr h, hindices,
        List.range_eq_range']
    · rw [hindices, List.mem_range'_1]
      omega

/-- `store_file` cuts a file of more than one block and less than `2 ^ 32` bytes into blocks
exactly if no block of it replaces the header by something else. -/
theorem partitions_iff (store : Blockstore) (memory : Memory) (content : Bytes)
    (hbig : store.blocksize < content.length) (hsize : content.length < 2 ^ 32) :
    Partitions store memory content ↔ KeepsHeader store memory content :=
  ⟨fun h => h.keepsHeader hbig hsize, fun h => h.partitions hbig hsize⟩

/-- A file of 1025 zero bytes is cut into a block and one byte. -/
theorem partitions_zeros_1025 : Partitions zeroStore zeroMemory (zeros 1025) := by
  refine (partitions_iff zeroStore zeroMemory (zeros 1025) (by decide +kernel)
    (by decide +kernel)).mpr fun own hown => ?_
  have hnone : (zeroStore.ownBlocks zeroMemory (zeros 1025)).getLast? = none := by decide +kernel
  rw [hnone] at hown
  simp at hown

/-- A file of letters `a`. -/
def letters (length : Nat) : Bytes := List.replicate length 97

/-- A store in the directory `/data` with blocks of 1024 bytes and the digests of some files of
letters. -/
def letterStore : Blockstore :=
  initialise (.ofDigests
    [(letters 1, digest
        0x1f40fc92da241694750979ee6cf582f2d5d7d28e18335de05abc54d0560e0f53
        0x02860c652bf08d560252aa5e74210546f369fbbbce8c12cfc7957b2652fe9a75),
      (letters 1025, digest
        0xc904641aa423a803e0b961e3993baf8659e5da958fa89c641bbb582c804fe0aa
        0x149cfa0afec16f5d15474ee46ff8611441d87dff157834caade9e1aa40bd898f)])
    [[100, 97, 116, 97]] validPath_data 1 Nat.one_pos one_unit_lt

/-- A memory with one more letter behind the block buffer. -/
def letterMemory : Memory := { zeroMemory with behind := fun _ => [97, 0] }

/-- The first block of a file of 1025 letters is hashed together with the letter behind it, as the
whole file, and takes the place of its header. The length and the two ids are written over it, and
what they leave of it stays behind them. -/
theorem not_partitions_letters_1025 :
    letterStore.blocksize < (letters 1025).length ∧ (letters 1025).length < 2 ^ 32 ∧
      ¬ Partitions letterStore letterMemory (letters 1025) := by
  have hbig : letterStore.blocksize < (letters 1025).length := by decide +kernel
  have hsize : (letters 1025).length < 2 ^ 32 := by decide +kernel
  refine ⟨hbig, hsize, fun h => ?_⟩
  have hown : (letterStore.ownBlocks letterMemory (letters 1025)).getLast? = some 0 := by
    decide +kernel
  have hshort := ((h.keepsHeader hbig hsize) 0 hown).2
  revert hshort
  decide +kernel

end Blockstore

end AnarchNet
