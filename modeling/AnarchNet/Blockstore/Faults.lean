import AnarchNet.Blockstore.KeyValue
import AnarchNet.FFStore.Faults

/-!
# The block store when calls fail

`kv_put` over calls that may fail. A call that does not return true leaves new directories along the
path of the block or of the key, and nothing else.
-/

namespace AnarchNet

open FileSystem EStateM

/-- A block that was not opened leaves new directories along its path. -/
theorem dirsAlong_openBlockFaulty {state : FaultyWorld} {dir : FilePath} {text : Bytes}
    (hlinks : state.world.tree.LinksToFiles)
    (hnone : ∀ file after, (openBlockFaulty dir text).run state ≠ .ok (some file) after) :
    FileTree.DirsAlong (dir ++ components (removeFilename text)) state.world.tree
      ((openBlockFaulty dir text).run state).state.world.tree := by
  have hdirs := dirsAlong_ensureDirectoryFaulty (ε := Exception)
    (dir ++ components (removeFilename text)) hlinks
  rw [openBlockFaulty, run_bind] at hnone ⊢
  cases hmade : (ensureDirectoryFaulty (dir ++ components (removeFilename text)) :
      FaultyStorage Bool).run state with
  | error fault made =>
      rw [hmade] at hdirs
      exact hdirs
  | ok flag made =>
      rw [hmade] at hdirs hnone
      cases flag with
      | false => exact hdirs
      | true =>
          simp only [if_true] at hnone ⊢
          rcases run_openOutFaulty_cases (ε := Exception) (dir ++ components text) made with
            ⟨after, hrun, hsame⟩ | ⟨file, after, hrun, -⟩
          · rw [hrun, Result.state_ok, hsame]
            exact hdirs
          · exact absurd hrun (hnone file after)

/-- A block that was opened: its directory was made, and then the file was opened. -/
theorem run_openBlockFaulty_some {state after : FaultyWorld} {dir file : FilePath} {text : Bytes}
    (hlinks : state.world.tree.LinksToFiles)
    (hrun : (openBlockFaulty dir text).run state = .ok (some file) after) :
    ∃ made : FileTree, FileTree.DirsAlong (dir ++ components (removeFilename text)) state.world.tree
        made ∧ made.opened (dir ++ components text) = some (after.world.tree, file) := by
  have hdirs := dirsAlong_ensureDirectoryFaulty (ε := Exception)
    (dir ++ components (removeFilename text)) hlinks
  obtain ⟨flag, made, hmade, hrest⟩ := run_bind_eq_ok hrun
  rw [hmade] at hdirs
  cases flag with
  | false => simp at hrest
  | true =>
      refine ⟨made.world.tree, hdirs, ?_⟩
      simp only [if_true] at hrest
      rcases run_openOutFaulty_cases (ε := Exception) (dir ++ components text) made with
        ⟨other, hopen, -⟩ | ⟨other, last, hopen, hopened⟩
      · simp [hopen] at hrest
      · rw [hopen, Result.ok.injEq, Option.some.injEq] at hrest
        obtain ⟨rfl, rfl⟩ := hrest
        exact hopened

namespace KvBlockstore

variable {store : KvBlockstore}

/-- `store_block` with calls that may fail. -/
def storeBlockFaulty (store : KvBlockstore) (content : Bytes) : FaultyStorage Bool := do
  let text ← reliable (pathText (toHex (store.sha.hash content)))
  match ← openBlockFaulty store.uniqueDir text with
  | none => return false
  | some file => do
      reliable (writeAt file 0 content)
      return true

/-- The branch of `kv_put` for a value whose hash is not the key, with calls that may fail. -/
def putMidFaulty (store : KvBlockstore) (key hash value : Bytes) : FaultyStorage Bool := do
  let text ← reliable (pathText key)
  if ← ensureDirectoryFaulty (store.midDir ++ components (removeFilename (text ++ [slash, 120]))) then
    match ← openOutFaulty (store.midDir ++ components (text ++ slash :: hash)) with
    | none => return false
    | some file => do
        reliable (writeAt file 0 value)
        return true
  else return false

/-- `kv_put` with calls that may fail. -/
def kvPutFaulty (store : KvBlockstore) (givenKey value : Bytes) : FaultyStorage Bool :=
  let key := validateKey store.sha givenKey
  let hash := toHex (store.sha.hash value)
  if key = hash then store.storeBlockFaulty value
  else store.putMidFaulty key hash value

/-- Without faults, `kv_put` is the reliable one. -/
theorem agrees_kvPut (store : KvBlockstore) (key value : Bytes) :
    Agrees (store.kvPutFaulty key value) (store.kvPut key value) := by
  refine Agrees.ite ?_ ?_
  · refine Agrees.bind (Agrees.reliable _) fun text => Agrees.bind (agrees_openBlock _ _)
      fun file => ?_
    cases file with
    | none => exact Agrees.pure false
    | some file => exact Agrees.bind (Agrees.reliable _) fun _ => Agrees.pure true
  · refine Agrees.bind (Agrees.reliable _) fun text => Agrees.bind (agrees_ensureDirectory _)
      fun made => Agrees.ite ?_ (Agrees.pure false)
    refine Agrees.bind (Agrees.unreliable _ _) fun file => ?_
    cases file with
    | none => exact Agrees.pure false
    | some file => exact Agrees.bind (Agrees.reliable _) fun _ => Agrees.pure true

/-- The directory that `kv_put` makes for a key. -/
def midHome (store : KvBlockstore) (key : Bytes) : FilePath :=
  store.midDir ++ components (removeFilename (shardText (validateKey store.sha key) ++ [slash, 120]))

/-- The path of the entry of a value under a key, as the source makes it. -/
def entryAt (store : KvBlockstore) (key value : Bytes) : FilePath :=
  store.midDir ++ components (shardText (validateKey store.sha key) ++ slash :: store.idOf value)

/-- The directory of a key is a beginning of its path. -/
theorem midHome_prefix (store : KvBlockstore) (key : Bytes) :
    store.midHome key <+: store.midAt key := by
  obtain ⟨count, hcount, -⟩ := components_eq_home (validateKey store.sha key)
  exact ⟨List.replicate count [], by rw [midHome, midAt, hcount, List.append_assoc]⟩

/-- The path of a key leads where its directory leads. -/
theorem normal_midAt (store : KvBlockstore) (key : Bytes) :
    normal [] (store.midAt key) = normal [] (store.midHome key) := by
  obtain ⟨count, hcount, -⟩ := components_eq_home (validateKey store.sha key)
  rw [midHome, midAt, hcount, ← normal_filter, ← normal_filter [] (store.midDir ++ _),
    List.filter_append, List.filter_append, List.filter_append]
  simp

/-- The directory of a short key. -/
theorem midHome_eq_keyDir {key : Bytes} (hkey : HexId (validateKey store.sha key)) :
    store.midHome key = store.keyDir key := by
  rw [midHome, hkey.removeFilename_shardText_append (show slash ∉ [(120 : UInt8)] by decide),
    hkey.components_shardText, keyDir]

end KvBlockstore

end AnarchNet
