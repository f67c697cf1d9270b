import AnarchNet.FFStore.AnyKey
import AnarchNet.FFStore.Multimap
import AnarchNet.Lib.FileFaults

/-!
# The flat-file store when calls fail

`kv_put` over calls that may fail. A put that fails leaves new directories along the path of the
block or of the key, or it stores the block and does not link it. So at every point between calls the
links of a key are those of the values that were put successfully, `links_between_calls`.
-/

namespace AnarchNet

open FileSystem EStateM

/-- A storage program whose calls may fail. -/
abbrev FaultyStorage := EStateM Exception FaultyWorld

/-- `openBlock` with calls that may fail. -/
def openBlockFaulty (dir : FilePath) (text : Bytes) : FaultyStorage (Option FilePath) := do
  if ← ensureDirectoryFaulty (dir ++ components (removeFilename text)) then
    openOutFaulty (dir ++ components text)
  else return none

/-- Without faults. -/
theorem agrees_openBlock (dir : FilePath) (text : Bytes) :
    Agrees (openBlockFaulty dir text) (openBlock dir text) :=
  Agrees.bind (agrees_ensureDirectory _) fun _ => Agrees.ite (Agrees.unreliable _ _)
    (Agrees.pure none)

/-- A block that fails to open leaves new directories along its path. -/
theorem run_openBlockFaulty_cases {state : FaultyWorld} (dir : FilePath) (text : Bytes)
    (hlinks : state.world.tree.LinksToFiles) :
    ∃ faults, (openBlockFaulty dir text).run state =
        withFaults faults ((openBlock dir text).run state.world) ∨
      ∃ after, FileTree.DirsAlong (dir ++ components (removeFilename text)) state.world.tree
          after.tree ∧
        ((openBlockFaulty dir text).run state = .error .filesystemError ⟨after, faults⟩ ∨
          (openBlockFaulty dir text).run state = .ok none ⟨after, faults⟩) := by
  simp only [openBlockFaulty, openBlock, run_bind]
  have hdirs := dirsAlong_ensureDirectory (ε := Exception) (dir ++ components (removeFilename text))
    hlinks
  obtain ⟨faults, hsame | ⟨after, herror, hafter⟩⟩ := run_ensureDirectoryFaulty_cases
    (ε := Exception) (dir ++ components (removeFilename text)) hlinks
  · rw [hsame]
    cases hrun : (ensureDirectory (dir ++ components (removeFilename text)) : Storage Bool).run
        state.world with
    | error fault made => exact ⟨faults, Or.inl rfl⟩
    | ok flag made =>
        cases flag with
        | false => exact ⟨faults, Or.inl rfl⟩
        | true =>
            rw [hrun] at hdirs
            simp only [withFaults_ok, if_true]
            obtain ⟨left, hcall | hcall⟩ := run_unreliable_cases
              (openOut (dir ++ components text) : Storage (Option FilePath)) (return none)
              ⟨made, faults⟩
            · exact ⟨left, Or.inl hcall⟩
            · exact ⟨left, Or.inr ⟨made, hdirs, Or.inr hcall⟩⟩
  · rw [herror]
    exact ⟨faults, Or.inr ⟨after, hafter, Or.inl rfl⟩⟩

/-- A call that did not return true and left new directories along a path. -/
def FailedAlong (path : FilePath) (before : FileTree)
    (result : EStateM.Result Exception FaultyWorld Bool) : Prop :=
  result.isTrue = false ∧ FileTree.DirsAlong path before result.state.world.tree

namespace FFStore

variable {store : FFStore}

/-- `store_block` with calls that may fail. -/
def storeBlockFaulty (store : FFStore) (content : Bytes) : FaultyStorage Bool := do
  let hash := toHex (store.sha.hash content)
  let text ← reliable (pathText hash)
  match ← openBlockFaulty store.dataDir text with
  | none => return false
  | some file => do
      reliable (writeAt file 0 content)
      return true

/-- The second half of `kv_put` with calls that may fail. -/
def putLinkFaulty (store : FFStore) (key hash : Bytes) : FaultyStorage Bool := do
  let text ← reliable (pathText key)
  let dir := store.linkDir ++ components (removeFilename (text ++ [slash, 120]))
  if ← ensureDirectoryFaulty dir then
    let symlink := store.linkDir ++ components (text ++ slash :: hash)
    if ← reliable (present symlink) then return true
    else do
      let target ← reliable (pathText hash)
      createSymlinkFaulty (store.dataDir ++ components target) symlink
      return true
  else return false

/-- `kv_put` with calls that may fail. -/
def kvPutFaulty (store : FFStore) (givenKey value : Bytes) : FaultyStorage Bool := do
  let key := validateKey store.sha givenKey
  let hash := toHex (store.sha.hash value)
  if ← store.storeBlockFaulty value then store.putLinkFaulty key hash
  else return false

/-- Without faults, `kv_put` is the reliable one. -/
theorem agrees_kvPut (store : FFStore) (key value : Bytes) :
    Agrees (store.kvPutFaulty key value) (store.kvPut key value) := by
  refine Agrees.bind ?_ fun stored => Agrees.ite ?_ (Agrees.pure false)
  · refine Agrees.bind (Agrees.reliable _) fun text => Agrees.bind (agrees_openBlock _ _) fun file => ?_
    cases file with
    | none => exact Agrees.pure false
    | some file => exact Agrees.bind (Agrees.reliable _) fun _ => Agrees.pure true
  · refine Agrees.bind (Agrees.reliable _) fun text => Agrees.bind (agrees_ensureDirectory _)
      fun made => Agrees.ite ?_ (Agrees.pure false)
    refine Agrees.bind (Agrees.reliable _) fun there => Agrees.ite (Agrees.pure true) ?_
    exact Agrees.bind (Agrees.reliable _) fun target => Agrees.bind (Agrees.unreliable _ _)
      fun _ => Agrees.pure true

section Calls

variable {state : FaultyWorld}

/-- The directory of the block of a value. -/
def blockHome (store : FFStore) (value : Bytes) : FilePath :=
  store.dataDir ++ components (removeFilename (shardText (store.linkName value)))

/-- A block that fails to be stored leaves new directories along its path. -/
theorem run_storeBlockFaulty_cases (store : FFStore) (value : Bytes)
    (hlinks : state.world.tree.LinksToFiles) :
    (∃ faults, (store.storeBlockFaulty value).run state =
        withFaults faults ((store.storeBlock value).run state.world)) ∨
      FailedAlong (store.blockHome value) state.world.tree
        ((store.storeBlockFaulty value).run state) := by
  have hhex := store.sha.hexId value
  simp only [storeBlockFaulty, storeBlock, run_bind, run_reliable, run_pathText hhex, withFaults_ok]
  obtain ⟨faults, hsame | ⟨after, hdirs, hfail | hfail⟩⟩ := run_openBlockFaulty_cases
    store.dataDir (shardText (store.linkName value)) hlinks
  · refine Or.inl ⟨faults, ?_⟩
    rw [hsame]
    cases hrun : (openBlock store.dataDir (shardText (store.linkName value))).run state.world with
    | error fault opened => rfl
    | ok file opened =>
        cases file with
        | none => rfl
        | some file => rfl
  · rw [hfail]
    exact Or.inr ⟨rfl, hdirs⟩
  · rw [hfail]
    exact Or.inr ⟨rfl, hdirs⟩

/-- The link fails: the directory of the key was made, and then nothing happened. -/
def LinkFails (store : FFStore) (key : Bytes) (world : World)
    (result : EStateM.Result Exception FaultyWorld Bool) : Prop :=
  ∃ made faults, (ensureDirectory (store.home key) : Storage Bool).run world = .ok true made ∧
    result = .error .filesystemError ⟨made, faults⟩

/-- Linking a block fails along the path of the key, or it fails to create the link. -/
theorem run_putLinkFaulty_cases (store : FFStore) (key value : Bytes)
    (hlinks : state.world.tree.LinksToFiles) :
    (∃ faults, (store.putLinkFaulty (validateKey store.sha key) (store.linkName value)).run state =
        withFaults faults
          ((store.putLink (validateKey store.sha key) (store.linkName value)).run state.world)) ∨
      FailedAlong (store.home key) state.world.tree
        ((store.putLinkFaulty (validateKey store.sha key) (store.linkName value)).run state) ∨
      LinkFails store key state.world
        ((store.putLinkFaulty (validateKey store.sha key) (store.linkName value)).run state) := by
  have hhex := store.sha.hexId value
  simp only [putLinkFaulty, putLink, run_bind, run_reliable, run_pathText_validateKey, withFaults_ok]
  rw [show store.linkDir ++ components (removeFilename
    (shardText (validateKey store.sha key) ++ [slash, 120])) = store.home key from rfl]
  obtain ⟨faults, hsame | ⟨after, herror, hdirs⟩⟩ := run_ensureDirectoryFaulty_cases
    (ε := Exception) (store.home key) hlinks
  · rw [hsame]
    cases hrun : (ensureDirectory (store.home key) : Storage Bool).run state.world with
    | error fault made => exact Or.inl ⟨faults, rfl⟩
    | ok flag made =>
        cases flag with
        | false => exact Or.inl ⟨faults, rfl⟩
        | true =>
            simp only [withFaults_ok, if_true, run_bind, run_reliable, run_present]
            split
            · exact Or.inl ⟨faults, rfl⟩
            · simp only [run_bind, run_reliable, run_pathText hhex, withFaults_ok]
              obtain ⟨left, hcall | hcall⟩ := run_unreliable_cases
                (createNode (store.linkDir ++ components
                  (shardText (validateKey store.sha key) ++ slash :: store.linkName value))
                  (.link (store.dataDir ++ components (shardText (store.linkName value)))) :
                  Storage Unit) (throw FileFault.filesystemError) ⟨made, faults⟩
              · refine Or.inl ⟨left, ?_⟩
                rw [createSymlinkFaulty, createNodeFaulty, hcall, createSymlink]
                cases (createNode (store.linkDir ++ components
                  (shardText (validateKey store.sha key) ++ slash :: store.linkName value))
                  (.link (store.dataDir ++ components (shardText (store.linkName value)))) :
                  Storage Unit).run made <;> rfl
              · refine Or.inr (Or.inr ⟨made, left, hrun, ?_⟩)
                rw [createSymlinkFaulty, createNodeFaulty, hcall]
                rfl
  · rw [herror]
    exact Or.inr (Or.inl ⟨rfl, hdirs⟩)

/-- Storing a block keeps what is there. -/
theorem keeps_storeBlock (store : FFStore) (value : Bytes) :
    Preserves Keeps (store.storeBlock value) := by
  refine Preserves.bind (preserves_pathText _) fun text => ?_
  refine Preserves.bind (keeps_openBlock _ _) fun file => ?_
  cases file with
  | none => exact Preserves.pure false
  | some file => exact Preserves.bind (keeps_writeAt _ _ _) fun _ => Preserves.pure true

/-- What `kv_put` did when its calls may fail: what the reliable one does, or it failed to store the
block, or it stored it and failed along the path of the key or at the link. -/
theorem run_kvPutFaulty_cases (store : FFStore) (key value : Bytes)
    (hlinks : state.world.tree.LinksToFiles) :
    (∃ faults, (store.kvPutFaulty key value).run state =
        withFaults faults ((store.kvPut key value).run state.world)) ∨
      FailedAlong (store.blockHome value) state.world.tree
        ((store.kvPutFaulty key value).run state) ∨
      ∃ middle, (store.storeBlock value).run state.world = .ok true middle ∧
        (FailedAlong (store.home key) middle.tree ((store.kvPutFaulty key value).run state) ∨
          LinkFails store key middle ((store.kvPutFaulty key value).run state)) := by
  simp only [kvPutFaulty, kvPut, run_bind]
  rcases store.run_storeBlockFaulty_cases value hlinks with ⟨faults, hsame⟩ | ⟨hfalse, hdirs⟩
  · rw [hsame]
    cases hrun : (store.storeBlock value).run state.world with
    | error fault middle => exact Or.inl ⟨faults, rfl⟩
    | ok flag middle =>
        cases flag with
        | false => exact Or.inl ⟨faults, rfl⟩
        | true =>
            have hkept : FileTree.Kept state.world.tree middle.tree :=
              (store.keeps_storeBlock value).ok hrun
            simp only [withFaults_ok, if_true]
            rcases @run_putLinkFaulty_cases ⟨middle, faults⟩ store key value
              (hkept.linksToFiles hlinks) with hsame | hfail | hfail
            · exact Or.inl hsame
            · exact Or.inr (Or.inr ⟨middle, rfl, Or.inl hfail⟩)
            · exact Or.inr (Or.inr ⟨middle, rfl, Or.inr hfail⟩)
  · refine Or.inr (Or.inl ?_)
    cases hrun : (store.storeBlockFaulty value).run state with
    | error fault after =>
        rw [hrun] at hdirs
        exact ⟨rfl, hdirs⟩
    | ok flag after =>
        rw [hrun] at hfalse hdirs
        rw [show flag = false from hfalse]
        exact ⟨rfl, hdirs⟩

end Calls

/-! ## The links of a key between calls -/

/-- A call on the store. The calls of the file system inside a put may fail. -/
inductive FaultyOp where
  | put (key value : Bytes) (faults : List Bool)
  | get (key : Bytes)
  | remove (key : Bytes)

namespace FaultyOp

/-- The key of a call. -/
def key : FaultyOp → Bytes
  | put key _ _ => key
  | get key => key
  | remove key => key

/-- The strings that a call hashes. -/
def hashed : FaultyOp → List Bytes
  | put key value _ => [key, value]
  | get key => [key]
  | remove key => [key]

/-- A call, with the values that were put successfully under each key since it was last removed
successfully. -/
def step (store : FFStore) (platform : Platform) (state : World × Multimap) :
    FaultyOp → World × Multimap
  | put key value faults =>
      let result := (store.kvPutFaulty key value).run ⟨state.1, faults⟩
      (result.state.world,
        if result.isTrue then Op.apply state.2 (.put key value) else state.2)
  | get key => (((store.kvGet platform key).run state.1).state, state.2)
  | remove key =>
      let result := (store.kvRemove platform key).run state.1
      (result.state, if result.isTrue then Op.apply state.2 (.remove key) else state.2)

end FaultyOp

/-- The names in the directory of the key are those of its values, and every link leads to a block
with the content that the name says. -/
structure LinksOf (store : FFStore) (map : Multimap) (key : Bytes) (tree : FileTree) : Prop where
  names : ∀ name, name ∈ tree.names (store.keyDir key) ↔
    ∃ value ∈ map key, name = toHex (store.sha.hash value)
  leads : ∀ name ∈ tree.names (store.keyDir key), ∃ file value,
    tree.resolve (store.keyDir key ++ [name]) = some file ∧ store.dataDir <+: file ∧
      tree.get file = some (.file value) ∧ toHex (store.sha.hash value) = name

section Runs

variable {known : Set Bytes} {map : Multimap}

/-- New directories above blocks and above the directories of keys change no links. -/
theorem Lists.of_dirs {before after : FileTree} (h : Lists store known map before)
    (hget : ∀ path, after.get path = before.get path ∨
      before.get path = none ∧ after.get path = some .dir ∧
        ((∃ id, HexId id ∧ path <+: store.linkDir ++ shard id) ∨
          ∃ id, HexId id ∧ path <+: store.dataDir ++ (shard id).dropLast)) :
    Lists store known map after := by
  have hsome : ∀ path node, before.get path = some node → after.get path = some node := by
    intro path node hnode
    rcases hget path with heq | ⟨hnone, -⟩
    · rw [heq, hnode]
    · simp [hnone] at hnode
  have hdata : ∀ rest, after.get (store.dataDir ++ rest) = before.get (store.dataDir ++ rest) ∨
      before.get (store.dataDir ++ rest) = none ∧ after.get (store.dataDir ++ rest) = some .dir ∧
        rest.length < 3 := by
    intro rest
    rcases hget (store.dataDir ++ rest) with heq | ⟨hnone, hdir, ⟨id, -, hpre⟩ | ⟨id, -, hpre⟩⟩
    · exact Or.inl heq
    · exact absurd hpre (store.not_data_prefix_link _ _)
    · rw [List.prefix_append_right_inj] at hpre
      have hlength := hpre.length_le
      simp only [shard, List.dropLast, List.length_cons, List.length_nil] at hlength
      exact Or.inr ⟨hnone, hdir, by omega⟩
  have hentry : ∀ key name, after.get (store.keyDir key ++ [name]) =
      before.get (store.keyDir key ++ [name]) := by
    intro key name
    rcases hget (store.keyDir key ++ [name]) with heq | ⟨-, -, ⟨id, -, hpre⟩ | ⟨id, -, hpre⟩⟩
    · exact heq
    · have hlength := hpre.length_le
      rw [keyDir, List.append_assoc, List.length_append, List.length_append] at hlength
      simp [shard] at hlength
    · rw [keyDir, List.append_assoc] at hpre
      exact absurd hpre (store.not_link_prefix_data _ _)
  refine ⟨⟨hsome _ _ h.sound.linkDir, ⟨hsome _ _ h.sound.blocks.base, fun id above hid habove hne => ?_,
      fun id hid => ?_⟩, fun path target hlink => ?_⟩, h.values, fun id above hid habove => ?_,
    fun key hkey hshort name => ?_, fun key value hvalue => hsome _ _ (h.blocks key value hvalue)⟩
  · rcases hdata above with heq | ⟨-, hdir, -⟩
    · rw [heq]
      exact h.sound.blocks.above id above hid habove hne
    · exact Or.inr hdir
  · rcases hdata (shard id) with heq | ⟨-, -, hlength⟩
    · rw [heq]
      exact h.sound.blocks.files id hid
    · simp [shard] at hlength
  · have hold : before.get path = some (.link target) := by
      rcases hget path with heq | ⟨-, hdir, -⟩
      · rw [← heq, hlink]
      · simp [hdir] at hlink
    obtain ⟨hpath, id, hid, htarget, content, hfile⟩ := h.sound.links path target hold
    exact ⟨hpath, id, hid, htarget, content, hsome _ _ hfile⟩
  · rcases hget (store.linkDir ++ above) with heq | ⟨-, hdir, -⟩
    · rw [heq]
      exact h.free id above hid habove
    · exact Or.inr hdir
  · rw [hentry, h.entries key hkey hshort]

/-- The directory of a block is plain, and so is that of a short key. -/
theorem blockHome_eq (store : FFStore) (value : Bytes) :
    store.blockHome value = store.dataDir ++ (shard (store.linkName value)).dropLast := by
  rw [blockHome, (store.sha.hexId value).components_removeFilename]

/-- The directory of a short key. -/
theorem home_eq_keyDir {key : Bytes} (hkey : HexId (validateKey store.sha key)) :
    store.home key = store.keyDir key := by
  rw [home, hkey.removeFilename_shardText_append (show slash ∉ [(120 : UInt8)] by decide),
    hkey.components_shardText, keyDir]

/-- A value that is stored as a block changes no links. -/
theorem Lists.of_stored {before after : FileTree} (h : Lists store known map before)
    (hinj : Set.InjOn store.sha.hash known) {value : Bytes} (hvalue : value ∈ known)
    (hstored : Stored (store.block value) value before after) : Lists store known map after := by
  refine ⟨h.sound.of_stored hstored, h.values, fun id above hid habove => ?_,
    fun key hkey hshort name => ?_, fun key found hfound => ?_⟩
  · rw [get_link_of_stored hstored]
    exact h.free id above hid habove
  · rw [keyDir, List.append_assoc, get_link_of_stored hstored, ← List.append_assoc, ← keyDir,
      h.entries key hkey hshort]
  · rw [hstored]
    by_cases heq : found = value
    · rw [if_pos (by rw [heq]), heq]
    · have hne : ¬ store.block found <+: store.block value := fun hpre =>
        heq (value_eq_of_block_le hinj (h.values key found hfound) hvalue hpre)
      have hne' : store.block found ≠ store.block value := fun hblock => hne (by rw [hblock])
      rw [if_neg hne', if_neg hne, h.blocks key found hfound]

/-- A put under a short key, whose calls may fail: if it returns true the value joins the values of
the key, and otherwise no links change. -/
theorem Lists.kvPutFaulty {state : FaultyWorld} (h : Lists store known map state.world.tree)
    (hinj : Set.InjOn store.sha.hash known) {key value : Bytes} (hkey : key ∈ known)
    (hvalue : value ∈ known) (hshort : key.length < 128) :
    Lists store known
      (if ((store.kvPutFaulty key value).run state).isTrue then Op.apply map (.put key value)
        else map) ((store.kvPutFaulty key value).run state).state.world.tree := by
  have hhex := hexId_validateKey store.sha hshort
  have hkeyDir : ∀ {tree after : FileTree}, Lists store known map tree →
      FileTree.DirsAlong (store.home key) tree after → Lists store known map after := by
    intro tree after htree hdirs
    rw [home_eq_keyDir hhex] at hdirs
    refine htree.of_dirs fun path => ?_
    rcases hdirs.get (validPath_keyDir hhex).plain path with heq | ⟨hnone, hdir, hpre⟩
    · exact Or.inl heq
    · exact Or.inr ⟨hnone, hdir, Or.inl ⟨_, hhex, hpre⟩⟩
  rcases store.run_kvPutFaulty_cases key value h.sound.linksToFiles with
    ⟨faults, hsame⟩ | ⟨hfalse, hdirs⟩ | ⟨middle, hstore, hfail⟩
  · obtain ⟨middle, after, hrun, -, -, hlists⟩ := h.put hinj hkey hvalue hshort
    rw [hsame, hrun]
    exact hlists
  · rw [hfalse]
    have hplain := (validPath_append.2 ⟨store.dataDir_valid, fun name hname =>
      (store.sha.hexId value).validPath_shard name (List.mem_of_mem_dropLast hname)⟩).plain
    rw [blockHome_eq] at hdirs
    refine h.of_dirs fun path => ?_
    rcases hdirs.get hplain path with heq | ⟨hnone, hdir, hpre⟩
    · exact Or.inl heq
    · exact Or.inr ⟨hnone, hdir, Or.inr ⟨_, store.sha.hexId value, hpre⟩⟩
  · obtain ⟨stored, hrun, hstored⟩ := run_storeBlock h.sound value
    obtain ⟨-, rfl⟩ := Result.ok.inj (hstore.symm.trans hrun)
    have hmiddle := h.of_stored hinj hvalue hstored
    rcases hfail with ⟨hfalse, hdirs⟩ | ⟨made, faults, hmade, herror⟩
    · rw [hfalse]
      exact hkeyDir hmiddle hdirs
    · rw [herror]
      have hdirs := dirsAlong_ensureDirectory (ε := Exception) (store.home key)
        hmiddle.sound.linksToFiles
      rw [hmade] at hdirs
      exact hkeyDir hmiddle hdirs

/-- Removing a short key, whether it is there or not. -/
theorem Lists.remove {world : World} (h : Lists store known map world.tree)
    (hinj : Set.InjOn store.sha.hash known) (platform : Platform) {key : Bytes} (hkey : key ∈ known)
    (hshort : key.length < 128) :
    Lists store known
      (if ((store.kvRemove platform key).run world).isTrue then Op.apply map (.remove key)
        else map) ((store.kvRemove platform key).run world).state.tree := by
  have hhex := hexId_validateKey store.sha hshort
  rcases h.free _ _ hhex (List.prefix_refl _) with hnone | hdir
  · obtain ⟨after, hrun, htree⟩ := run_kvRemove_missing platform h.sound hhex hnone
    rw [hrun]
    exact htree ▸ h
  · obtain ⟨after, hrun, -, hlists⟩ := h.kvRemove hinj platform hkey hshort hdir
    rw [hrun]
    exact hlists

/-- A call keeps the links. -/
theorem Lists.step {state : World × Multimap} (h : Lists store known state.2 state.1.tree)
    (hinj : Set.InjOn store.sha.hash known) (platform : Platform) {op : FaultyOp}
    (hknown : ∀ text ∈ op.hashed, text ∈ known) (hshort : op.key.length < 128) :
    Lists store known (op.step store platform state).2 (op.step store platform state).1.tree := by
  cases op with
  | put key value faults =>
      exact @Lists.kvPutFaulty _ _ _ ⟨state.1, faults⟩ h hinj key value
        (hknown key (by simp [FaultyOp.hashed])) (hknown value (by simp [FaultyOp.hashed])) hshort
  | get key =>
      obtain ⟨after, htree, hrun⟩ := store.run_kvGet_cases platform key state.1
      have hsame : ((store.kvGet platform key).run state.1).state.tree = state.1.tree := by
        rcases hrun with hrun | hrun | ⟨name, text, -, hrun⟩
        · rw [hrun]
          exact htree
        · rw [hrun, ← preserves_flowed (R := Eq) platform after]
          exact htree
        · rw [hrun]
          exact htree
      rw [FaultyOp.step, hsame]
      exact h
  | remove key => exact h.remove hinj platform (hknown key (by simp [FaultyOp.hashed])) hshort

/-- The links of a short key are those of its values. -/
theorem Lists.linksOf {tree : FileTree} (h : Lists store known map tree) {key : Bytes}
    (hkey : key ∈ known) (hshort : key.length < 128) : LinksOf store map key tree := by
  have hmem : ∀ name, name ∈ tree.names (store.keyDir key) ↔
      name ∈ (map key).map fun value => toHex (store.sha.hash value) := by
    intro name
    rw [FileTree.mem_names, h.entries key hkey hshort]
    simp
  refine ⟨fun name => ?_, fun name hname => ?_⟩
  · rw [hmem, List.mem_map]
    simp only [eq_comm]
  · obtain ⟨value, hvalue, rfl⟩ := List.mem_map.1 ((hmem name).1 hname)
    have hlink := h.entries key hkey hshort (toHex (store.sha.hash value))
    rw [if_pos ((hmem _).1 hname)] at hlink
    have hplain := (validPath_entry (hexId_validateKey store.sha hshort) value).plain
    exact ⟨_, value, FileTree.resolve_of_link hplain hlink (store.validPath_block value).plain
      (h.blocks key value hvalue), List.prefix_append _ _, h.blocks key value hvalue, rfl⟩

end Runs

/-- After every run of calls on short keys, in which the calls inside a put may fail, the links of a
short key are exactly those of the values put successfully since it was last removed successfully, and
they lead to the blocks of these values. -/
theorem links_between_calls (store : FFStore) (platform : Platform) (ops : List FaultyOp)
    (world : World) (key : Bytes) (hinitial : Initial store world.tree)
    (hops : ∀ op ∈ ops, op.key.length < 128) (hshort : key.length < 128)
    (hfree : CollisionFree store.sha (key :: ops.flatMap FaultyOp.hashed)) :
    LinksOf store (ops.foldl (FaultyOp.step store platform) (world, fun _ => [])).2 key
      (ops.foldl (FaultyOp.step store platform) (world, fun _ => [])).1.tree := by
  have hinj : Set.InjOn store.sha.hash {text | text ∈ key :: ops.flatMap FaultyOp.hashed} :=
    fun left hleft right hright => hfree left hleft right hright
  have hkey : key ∈ {text | text ∈ key :: ops.flatMap FaultyOp.hashed} := by simp
  refine Lists.linksOf ?_ hkey hshort
  refine List.foldlRecOn (motive := fun (state : World × Multimap) => Lists store
    {text | text ∈ key :: ops.flatMap FaultyOp.hashed} state.2 state.1.tree) _ _
    (hinitial.represents _).lists fun state h op hop => ?_
  refine h.step hinj platform (fun text htext => ?_) (hops op hop)
  exact List.mem_cons_of_mem _ (List.mem_flatMap.2 ⟨op, hop, htext⟩)

/-- The first put stores its value, the second one fails at its last call, and the link of the key
`k` is that of the first value. -/
theorem links_between_calls_letter :
    LinksOf letterStore
      ([FaultyOp.put [107] [97] [], .put [107] [98] [false, false, false, true]].foldl
        (FaultyOp.step letterStore plainPlatform) (letterStore.fresh, fun _ => [])).2 [107]
      ([FaultyOp.put [107] [97] [], .put [107] [98] [false, false, false, true]].foldl
        (FaultyOp.step letterStore plainPlatform) (letterStore.fresh, fun _ => [])).1.tree :=
  links_between_calls letterStore plainPlatform _ letterStore.fresh [107]
    letterStore.initial_fresh (by decide) (by decide) (by decide +kernel)

end FFStore

end AnarchNet
