import AnarchNet.Blockstore.RoundTrip

/-!
# Files that share the block store

Headers and blocks of all files lie in one directory, each under the hash of the string it was
hashed as. Calls for one file leave another file alone as long as none of the places they use is
one that the other file needs with other bytes.
-/

namespace AnarchNet

open FileSystem

namespace Blockstore

variable {store : Blockstore}

/-- A call for a file: storing it, storing its bytes as a block, or removing it. -/
inductive FileOp where
  | storeFile (memory : Memory)
  | storeBlock
  | removeFile

namespace FileOp

/-- The world after a call for the file with these bytes. -/
def apply (store : Blockstore) (content : Bytes) (op : FileOp) (world : World) : World :=
  match op with
  | storeFile memory => ((store.storeFile memory (some content)).run world).state
  | storeBlock => ((store.storeBlock content).run world).state
  | removeFile => ((store.removeFile (toHex (store.sha.hash content))).run world).state

/-- The memory that a call runs in, where it matters. -/
def memories : FileOp → List Memory
  | storeFile memory => [memory]
  | storeBlock => []
  | removeFile => []

end FileOp

/-- The world after a sequence of calls for one file. -/
def runFile (store : Blockstore) (content : Bytes) (ops : List FileOp) (world : World) : World :=
  ops.foldl (fun current op => op.apply store content current) world

/-- `load_file` publishes these bytes under the id of their hash. -/
def Publishes (store : Blockstore) (memory : Memory) (world : World) (content : Bytes) : Prop :=
  ∃ path after, (store.loadFile memory (toHex (store.sha.hash content))).run world =
      .ok ⟨some path, true⟩ after ∧ after.tree.content path = some content

/-- Under the id of the file lies a header that `store_file` writes and `load_file` can read: with
the bytes of a small file, or with the ids of the blocks of a big one. -/
def HeaderFor (store : Blockstore) (tree : FileTree) (content : Bytes) (ids : List Bytes) : Prop :=
  content.length + 4 ≤ store.blocksize ∧ ids = [] ∧
      store.view tree (store.idOf content) = some (uintBytes content.length ++ content) ∨
    store.blocksize < content.length ∧ content.length < 2 ^ 32 ∧ (∀ id ∈ ids, HexId id) ∧
      store.view tree (store.idOf content) = some (uintBytes content.length ++ ids.flatten)

variable {world : World}

/-- What is published is what the public file holds. -/
theorem publishes_of_loaded {memory : Memory} {content bytes : Bytes} {after : World}
    (hload : (store.loadFile memory (store.idOf content)).run world =
      .ok ⟨some (store.pubFile (store.idOf content)), true⟩ after)
    (hbytes : after.tree.get (store.pubFile (store.idOf content)) = some (.file bytes)) :
    store.Publishes memory world content ↔ bytes = content := by
  have hcontent : after.tree.content (store.pubFile (store.idOf content)) = some bytes := by
    rw [FileTree.content, hbytes]
  constructor
  · rintro ⟨path, published, hload', hpath⟩
    have heq := hload.symm.trans hload'
    simp only [EStateM.Result.ok.injEq, PublicFile.mk.injEq, Option.some.injEq] at heq
    obtain ⟨⟨rfl, -⟩, rfl⟩ := heq
    rw [hcontent, Option.some.injEq] at hpath
    exact hpath
  · rintro rfl
    exact ⟨_, after, hload, hcontent⟩

/-- What a header publishes depends on the bytes under the ids in it. -/
theorem HeaderFor.publishes_iff {content : Bytes} {ids : List Bytes}
    (h : HeaderFor store world.tree content ids) (hsound : Sound store world.tree)
    (memory : Memory) :
    store.Publishes memory world content ↔ ids = [] ∧ content.length + 4 ≤ store.blocksize ∨
      ∃ blocks, ids.map (store.view world.tree) = blocks.map some ∧ joined blocks = content := by
  have hid := store.hexId_idOf content
  rcases h with ⟨hsmall, rfl, hview⟩ | ⟨hbig, hsize, hids, hview⟩
  · obtain ⟨after, hafter, hget⟩ := run_loadFile_small hsound memory hid hview (by omega)
    rw [publishes_of_loaded hafter hget]
    simp [hsmall]
  · obtain ⟨hall, hmissing⟩ := run_loadFile_big hsound memory hid hids hview (by omega) hsize
    have hnot : ¬ (ids = [] ∧ content.length + 4 ≤ store.blocksize) := by omega
    rw [or_iff_right hnot]
    by_cases hnone : ∃ id ∈ ids, store.view world.tree id = none
    · obtain ⟨after, hafter⟩ := hmissing hnone
      obtain ⟨id, hmem, hnone⟩ := hnone
      refine iff_of_false ?_ ?_
      · rintro ⟨path, published, hload, -⟩
        have heq := hafter.symm.trans hload
        simp at heq
      · rintro ⟨blocks, hblocks, -⟩
        have hin : none ∈ blocks.map some := hblocks ▸ hnone ▸ List.mem_map_of_mem hmem
        simp at hin
    · have hblocks : ids.map (store.view world.tree) =
          (ids.map fun id => (store.view world.tree id).getD []).map some := by
        rw [List.map_map]
        refine List.map_congr_left fun id hmem => ?_
        cases hid : store.view world.tree id with
        | none => exact absurd ⟨id, hmem, hid⟩ hnone
        | some block => simp [hid]
      obtain ⟨after, hafter, hget⟩ := hall _ hblocks
      rw [publishes_of_loaded hafter hget]
      constructor
      · exact fun hjoined => ⟨_, hblocks, hjoined⟩
      · rintro ⟨blocks, heq, hjoined⟩
        rw [hblocks] at heq
        rw [List.map_injective_iff.mpr (fun _ _ => Option.some.inj) heq, hjoined]

/-! ## What the calls for a file leave alone -/

/-- A call for a file does not change the bytes under its own id: `store_file` finds the id in use,
`store_block` puts the bytes there that are there, and nothing is removed. -/
def FileOp.SparesOwn (store : Blockstore) (content : Bytes) (tree : FileTree) : FileOp → Prop
  | .storeFile _ => store.view tree (store.idOf content) ≠ none
  | .storeBlock => store.view tree (store.idOf content) = some content
  | .removeFile => False

/-- That depends on the bytes under the id only. -/
theorem FileOp.SparesOwn.of_view_eq {content : Bytes} {tree other : FileTree} {op : FileOp}
    (h : op.SparesOwn store content tree)
    (hview : store.view other (store.idOf content) = store.view tree (store.idOf content)) :
    op.SparesOwn store content other := by
  cases op with
  | storeFile memory => exact fun hnone => h (hview ▸ hnone)
  | storeBlock => exact hview.trans h
  | removeFile => exact h

/-- A call for a file does not change the bytes under an id, unless it stores the same bytes
again. -/
def Spares (store : Blockstore) (content : Bytes) (op : FileOp) (tree : FileTree) (id : Bytes) :
    Prop :=
  HexId id ∧ (id = store.idOf content → op.SparesOwn store content tree) ∧
    ∀ memory ∈ op.memories, ∀ index ∈ store.blockIndices content,
      store.blockId memory content index = id →
        store.view tree id = some (store.blockData content index)

/-- No block of the file is hashed as the whole file, in the memory behind the buffer. -/
def Quiet (store : Blockstore) (memory : Memory) (content : Bytes) : Prop :=
  ∀ index ∈ store.blockIndices content, store.blockId memory content index ≠ store.idOf content

/-- One call for a file keeps the tree sound and the bytes under the ids that it spares. -/
theorem apply_spares {content : Bytes} (hsize : content.length < 2 ^ 32)
    (hsound : Sound store world.tree) (op : FileOp)
    (hquiet : ∀ memory ∈ op.memories, store.Quiet memory content) :
    Sound store (op.apply store content world).tree ∧
      ∀ id, Spares store content op world.tree id →
        store.view (op.apply store content world).tree id = store.view world.tree id := by
  have hid := store.hexId_idOf content
  cases op with
  | storeFile memory =>
      cases hview : store.view world.tree (store.idOf content) with
      | some old =>
          rw [FileOp.apply, run_storeFile_old hsound memory hview]
          exact ⟨hsound, fun _ _ => rfl⟩
      | none =>
          obtain ⟨after, hafter, hnow⟩ := run_storeFile_new hsound memory hsize hview
            (hquiet memory List.mem_cons_self)
          rw [FileOp.apply, hafter]
          refine ⟨hnow.sound, fun id hspares => ?_⟩
          obtain ⟨hhex, hown, hblocks⟩ := hspares
          have hne : id ≠ store.idOf content := fun heq => hown heq hview
          rw [EStateM.Result.state_ok, hnow.view id hhex, setFile, setId_other _ _ hne]
          by_cases hmem : ∃ index ∈ store.blockIndices content,
              store.blockId memory content index = id
          · obtain ⟨index, hindex, rfl⟩ := hmem
            obtain ⟨other, hother, hsame, hset⟩ := store.setBlocks_mem memory content hindex
            rw [hset, hblocks memory List.mem_cons_self other hother hsame]
          · push Not at hmem
            exact setBlocks_not_mem memory content _ hmem
  | storeBlock =>
      obtain ⟨after, hafter, hnow⟩ := run_storeBlock hsound content
      rw [FileOp.apply, hafter]
      refine ⟨hnow.sound, fun id hspares => ?_⟩
      rw [EStateM.Result.state_ok, hnow.view id hspares.1]
      by_cases heq : id = store.idOf content
      · subst heq
        exact (setId_same _ _ _).trans (hspares.2.1 rfl).symm
      · exact setId_other _ _ heq
  | removeFile =>
      cases hview : store.view world.tree (store.idOf content) with
      | some old =>
          obtain ⟨after, hafter, hnow⟩ := run_removeFile hsound hid hview
          rw [FileOp.apply, show toHex (store.sha.hash content) = store.idOf content from rfl, hafter]
          refine ⟨hnow.sound, fun id hspares => ?_⟩
          rw [EStateM.Result.state_ok, hnow.view id hspares.1,
            setId_other _ _ fun heq => hspares.2.1 heq]
      | none =>
          obtain ⟨after, hafter, htree⟩ := run_removeFile_missing hsound hid hview
          rw [FileOp.apply, show toHex (store.sha.hash content) = store.idOf content from rfl, hafter,
            EStateM.Result.state_ok, htree]
          exact ⟨hsound, fun _ _ => rfl⟩

/-- A sequence of calls for a file keeps the tree sound and the bytes under the ids that all of
them spare. -/
theorem runFile_spares {content : Bytes} (hsize : content.length < 2 ^ 32)
    (hsound : Sound store world.tree) (ops : List FileOp)
    (hquiet : ∀ op ∈ ops, ∀ memory ∈ op.memories, store.Quiet memory content) :
    Sound store (store.runFile content ops world).tree ∧
      ∀ id, (∀ op ∈ ops, Spares store content op world.tree id) →
        store.view (store.runFile content ops world).tree id = store.view world.tree id := by
  induction ops generalizing world with
  | nil => exact ⟨hsound, fun _ _ => rfl⟩
  | cons op ops ih =>
      obtain ⟨hafter, hkept⟩ := apply_spares hsize hsound op (hquiet op List.mem_cons_self)
      obtain ⟨hsound', hkept'⟩ := ih hafter fun other hother =>
        hquiet other (List.mem_cons_of_mem _ hother)
      refine ⟨hsound', fun id hspares => ?_⟩
      have hfirst := hkept id (hspares op List.mem_cons_self)
      refine (hkept' id fun other hother => ?_).trans hfirst
      obtain ⟨hhex, hown, hblocks⟩ := hspares other (List.mem_cons_of_mem _ hother)
      exact ⟨hhex, fun heq => (hown heq).of_view_eq (heq ▸ hfirst),
        fun memory hmemory index hindex heq => by
          rw [hfirst, hblocks memory hmemory index hindex heq]⟩

/-- The strings that blocks are hashed as in the calls for a file. -/
def opTexts (store : Blockstore) (content : Bytes) (ops : List FileOp) : List Bytes :=
  ops.flatMap fun op => op.memories.flatMap fun memory =>
    (store.blockIndices content).map (store.blockText memory content)

/-- The string of a block is one of them. -/
theorem blockText_mem_opTexts {content : Bytes} {ops : List FileOp} {op : FileOp} (hop : op ∈ ops)
    {memory : Memory} (hmemory : memory ∈ op.memories) {index : Nat}
    (hindex : index ∈ store.blockIndices content) :
    store.blockText memory content index ∈ store.opTexts content ops :=
  List.mem_flatMap.mpr ⟨op, hop, List.mem_flatMap.mpr ⟨memory, hmemory,
    List.mem_map_of_mem hindex⟩⟩

/-- The id of another file is spared if no block is hashed as that file. -/
theorem spares_idOf {one two : Bytes} {ops : List FileOp} (hne : one ≠ two)
    (hfree : CollisionFree store.sha (one :: two :: store.opTexts two ops))
    (hother : one ∉ store.opTexts two ops) (tree : FileTree) :
    ∀ op ∈ ops, Spares store two op tree (store.idOf one) := by
  intro op hop
  refine ⟨store.hexId_idOf one, fun heq => absurd (hfree _ (by simp) _ (by simp)
    (toHex_injective heq)) hne, fun memory hmemory index hindex heq => ?_⟩
  have htext : store.blockText memory two index ∈ store.opTexts two ops :=
    blockText_mem_opTexts hop hmemory hindex
  have hsame := hfree _ (List.mem_cons_of_mem _ (List.mem_cons_of_mem _ htext)) _ (by simp)
    (toHex_injective heq)
  rw [hsame] at htext
  exact absurd htext hother

/-- Calls for a file are quiet if no block is hashed as the whole file. -/
theorem quiet_of_not_mem {one two : Bytes} {ops : List FileOp}
    (hfree : CollisionFree store.sha (one :: two :: store.opTexts two ops))
    (hself : two ∉ store.opTexts two ops) :
    ∀ op ∈ ops, ∀ memory ∈ op.memories, store.Quiet memory two := by
  intro op hop memory hmemory index hindex heq
  have htext : store.blockText memory two index ∈ store.opTexts two ops :=
    blockText_mem_opTexts hop hmemory hindex
  have hsame := hfree _ (List.mem_cons_of_mem _ (List.mem_cons_of_mem _ htext)) _ (by simp)
    (toHex_injective heq)
  rw [hsame] at htext
  exact hself htext

/-- Storing a file that is not there and loading it publishes the same in every sound tree. -/
theorem publishes_stored_iff (hsound : Sound store world.tree) {memory later : Memory}
    {content : Bytes} {stored : World}
    (hfits : content.length + 4 ≤ store.blocksize ∨ store.blocksize < content.length)
    (hsize : content.length < 2 ^ 32)
    (hnew : store.view world.tree (store.idOf content) = none)
    (hquiet : store.Quiet memory content)
    (hstored : (store.storeFile memory (some content)).run world =
      .ok (true, toHex (store.sha.hash content)) stored) :
    store.Publishes later stored content ↔ content.length + 4 ≤ store.blocksize ∨
      joined ((store.blockIndices content).map (store.leftBlock memory content)) = content := by
  have hid := store.hexId_idOf content
  rcases hfits with hsmall | hbig
  · obtain ⟨stored', hstored', hnow⟩ := run_storeFile_small hsound memory hnew
      (show content.length ≤ store.blocksize by omega)
    obtain ⟨-, rfl⟩ : _ ∧ stored' = stored := by simpa using hstored'.symm.trans hstored
    obtain ⟨after, hafter, hget⟩ := run_loadFile_small hnow.sound later hid
      (by rw [hnow.view _ hid, setId_same]) (by omega)
    rw [publishes_of_loaded hafter hget]
    simp [hsmall]
  · obtain ⟨stored', after, hstored', hafter, hget⟩ :=
      run_store_and_load hsound memory later hbig hsize hnew hquiet
    obtain ⟨-, rfl⟩ : _ ∧ stored' = stored := by simpa using hstored'.symm.trans hstored
    rw [publishes_of_loaded hafter hget, or_iff_right (by omega)]

/-- Calls for one file do not disturb another: in every sequence of calls for `two` in which no
block is hashed as `one`, what was published for `one` still is, if the header lists no block of
`two` with other bytes, and the id of `two` only if the calls leave that as it is; and on the store
that the sequence leaves, storing `one` makes it published if it does so on an empty store. No
memory behind a buffer continues a block to a whole file. -/
theorem calls_spare_other_file (store : Blockstore) (one two : Bytes) (ops : List FileOp)
    (hne : one ≠ two) (hone : one.length < 2 ^ 32) (htwo : two.length < 2 ^ 32)
    (hfree : CollisionFree store.sha (one :: two :: store.opTexts two ops))
    (hself : two ∉ store.opTexts two ops) (hother : one ∉ store.opTexts two ops) :
    (∀ world ids memory later, Sound store world.tree → HeaderFor store world.tree one ids →
      (∀ id ∈ ids, ∀ op ∈ ops, Spares store two op world.tree id) →
      store.Publishes memory world one →
        store.Publishes later (store.runFile two ops world) one) ∧
    (∀ world memory later stored after, Empty store world.tree →
      (one.length + 4 ≤ store.blocksize ∨ store.blocksize < one.length) →
      store.Quiet memory one →
      (store.storeFile memory (some one)).run world =
        .ok (true, toHex (store.sha.hash one)) stored →
      store.Publishes later stored one →
      (store.storeFile memory (some one)).run (store.runFile two ops world) =
        .ok (true, toHex (store.sha.hash one)) after →
        store.Publishes later after one) := by
  have hquiet := quiet_of_not_mem hfree hself
  refine ⟨fun world ids memory later hsound hheader hids hpub => ?_,
    fun world memory later stored after hempty hfits hquietOne hstored hpub hafter => ?_⟩
  · obtain ⟨hsound', hkept⟩ := runFile_spares htwo hsound ops hquiet
    have hself := hkept _ (spares_idOf hne hfree hother world.tree)
    have hheader' : HeaderFor store (store.runFile two ops world).tree one ids := by
      unfold HeaderFor
      rw [hself]
      exact hheader
    rw [hheader.publishes_iff hsound] at hpub
    rw [hheader'.publishes_iff hsound', List.map_congr_left fun id hid =>
      hkept id (hids id hid)]
    exact hpub
  · obtain ⟨hsound', hkept⟩ := runFile_spares htwo hempty.sound ops hquiet
    have hnew := hkept _ (spares_idOf hne hfree hother world.tree)
    rw [hempty.view_eq_none] at hnew
    rw [publishes_stored_iff hempty.sound hfits hone (hempty.view_eq_none _) hquietOne hstored]
      at hpub
    rwa [publishes_stored_iff hsound' hfits hone hnew hquietOne hafter]

/-- The world after a file was removed. -/
theorem runFile_removeFile {content : Bytes} {removed : Bool} {after : World}
    (h : (store.removeFile (store.idOf content)).run world = .ok removed after) :
    store.runFile content [.removeFile] world = after := by
  rw [runFile, List.foldl_cons, List.foldl_nil, FileOp.apply,
    show toHex (store.sha.hash content) = store.idOf content from rfl, h, EStateM.Result.state_ok]

/-- The world in which a file was stored on the fresh store. -/
def storedZeros (length : Nat) : World :=
  ((zeroStore.storeFile zeroMemory (some (zeros length))).run zeroStore.fresh).state

/-- A file of one zero byte stays published whatever is done with a file of 1021. -/
theorem calls_spare_zeros_1 :
    zeroStore.Publishes zeroMemory (zeroStore.runFile (zeros 1021)
      [.storeFile zeroMemory, .storeBlock, .removeFile] (storedZeros 1)) (zeros 1) := by
  have hid := zeroStore.hexId_idOf (zeros 1)
  obtain ⟨stored, hstored, hnow⟩ := run_storeFile_small zeroStore.empty_fresh.sound zeroMemory
    (zeroStore.empty_fresh.view_eq_none _) (show (zeros 1).length ≤ zeroStore.blocksize by decide)
  have hworld : storedZeros 1 = stored := by rw [storedZeros, hstored, EStateM.Result.state_ok]
  have hheader : HeaderFor zeroStore stored.tree (zeros 1) [] :=
    Or.inl ⟨by decide, rfl, by rw [hnow.view _ hid, setId_same]⟩
  rw [hworld]
  refine (calls_spare_other_file zeroStore (zeros 1) (zeros 1021)
    [.storeFile zeroMemory, .storeBlock, .removeFile] (by decide +kernel) (by decide)
    (by decide +kernel) (by decide +kernel) (by decide +kernel) (by decide +kernel)).1 stored []
    zeroMemory zeroMemory hnow.sound hheader (by simp) ?_
  rw [hheader.publishes_iff hnow.sound]
  exact Or.inl ⟨rfl, by decide⟩

/-- Removing a file of one zero byte takes away the last block of a file of 1025 of them. -/
theorem removeFile_takes_block :
    zeros 1025 ≠ zeros 1 ∧
      CollisionFree zeroStore.sha [zeros 0, zeros 1, zeros 1025] ∧
      zeroStore.Publishes zeroMemory (storedZeros 1025) (zeros 1025) ∧
      ¬ zeroStore.Publishes zeroMemory
        (zeroStore.runFile (zeros 1) [.removeFile] (storedZeros 1025)) (zeros 1025) := by
  have hfree : CollisionFree zeroStore.sha (zeroStore.hashedTexts zeroMemory (zeros 1025)) := by
    decide +kernel
  have hbig : zeroStore.blocksize < (zeros 1025).length := by decide +kernel
  have hsize : (zeros 1025).length < 2 ^ 32 := by decide +kernel
  have hquiet : zeroStore.Quiet zeroMemory (zeros 1025) :=
    blockId_ne_idOf hfree (by decide +kernel)
  have hindex : 1 ∈ zeroStore.blockIndices (zeros 1025) := by decide +kernel
  have hblock : zeroStore.blockId zeroMemory (zeros 1025) 1 = zeroStore.idOf (zeros 1) := by
    rw [blockId, show zeroStore.blockText zeroMemory (zeros 1025) 1 = zeros 1 by decide +kernel]
  have hne : zeroStore.idOf (zeros 1025) ≠ zeroStore.idOf (zeros 1) := by
    rw [← hblock]
    exact (hquiet 1 hindex).symm
  obtain ⟨stored, hstored, hnow⟩ := run_storeFile_new zeroStore.empty_fresh.sound zeroMemory hsize
    (zeroStore.empty_fresh.view_eq_none _) hquiet
  have hworld : storedZeros 1025 = stored := by rw [storedZeros, hstored, EStateM.Result.state_ok]
  obtain ⟨other, -, -, hset⟩ := zeroStore.setBlocks_mem zeroMemory (zeros 1025) hindex
  have hview : zeroStore.view stored.tree (zeroStore.idOf (zeros 1)) =
      some (zeroStore.blockData (zeros 1025) other) := by
    rw [hnow.view _ (zeroStore.hexId_idOf _), setFile, setId_other _ _ hne.symm, ← hblock, hset]
  obtain ⟨after, hafter, hremoved⟩ := run_removeFile hnow.sound (zeroStore.hexId_idOf _) hview
  have hrun : zeroStore.runFile (zeros 1) [.removeFile] (storedZeros 1025) = after := by
    rw [hworld, runFile_removeFile hafter]
  have hheader : HeaderFor zeroStore after.tree (zeros 1025)
      ((zeroStore.blockIndices (zeros 1025)).map (zeroStore.blockId zeroMemory (zeros 1025))) := by
    refine Or.inr ⟨hbig, hsize, fun id hid => ?_, ?_⟩
    · obtain ⟨index, -, rfl⟩ := List.mem_map.mp hid
      exact zeroStore.hexId_blockId zeroMemory (zeros 1025) index
    · rw [hremoved.view _ (zeroStore.hexId_idOf _), setId_other _ _ hne,
        hnow.view _ (zeroStore.hexId_idOf _), setFile, setId_same, headerBytes, headerBody,
        if_neg (not_le.mpr hbig)]
  refine ⟨by decide +kernel, by decide +kernel, ?_, ?_⟩
  · rw [hworld, publishes_stored_iff zeroStore.empty_fresh.sound (Or.inr hbig) hsize
      (zeroStore.empty_fresh.view_eq_none _) hquiet hstored, joined_leftBlock_iff hbig hfree]
    exact Or.inr (by decide +kernel)
  · rw [hrun, hheader.publishes_iff hremoved.sound]
    rintro (⟨-, hsmall⟩ | ⟨blocks, hblocks, -⟩)
    · omega
    · have hnone : none ∈ blocks.map some := by
        rw [← hblocks]
        refine List.mem_map.mpr ⟨_, List.mem_map_of_mem hindex, ?_⟩
        rw [hblock, hremoved.view _ (zeroStore.hexId_idOf _), setId_same]
      simp at hnone

end Blockstore

end AnarchNet
