import AnarchNet.FFStore.Specs
import AnarchNet.Lib.FileKeeping
import AnarchNet.Lib.FileLog

/-!
# The flat-file store on any key

A key of 128 bytes or more is a path text as it stands, with whatever components it has. `place`
is the path that the source makes of a key. Linking a block under it creates missing stages of the
path and at most one link behind it, and getting a key reads one entry of the directory to which
the path leads.
-/

namespace AnarchNet

open FileSystem EStateM

/-- A validated key is never shorter than the hex form of a hash. -/
theorem length_validateKey (sha : Sha512) (key : Bytes) : 128 ≤ (validateKey sha key).length := by
  rw [validateKey]
  split
  · exact (sha.hexId key).length.ge
  · omega

/-- A validated key has a path text. -/
theorem run_pathText_validateKey (sha : Sha512) (key : Bytes) (world : World) :
    (pathText (validateKey sha key)).run world = .ok (shardText (validateKey sha key)) world :=
  run_pathText_of_le (by have := length_validateKey sha key; omega) world

/-- A slash is not a zero byte, so a path text holds one exactly if its text does. -/
theorem zero_mem_shardText {text : Bytes} : (0 : UInt8) ∈ shardText text ↔ (0 : UInt8) ∈ text := by
  have hsplit : text.take 2 ++ ((text.drop 2).take 2 ++ text.drop 4) = text := by
    rw [show text.drop 4 = (text.drop 2).drop 2 by rw [List.drop_drop], List.take_append_drop,
      List.take_append_drop]
  have hslash : (0 : UInt8) ≠ slash := by decide
  rw [← hsplit, List.mem_append, List.mem_append, hsplit, shardText, List.mem_append,
    List.mem_cons, List.mem_append, List.mem_cons]
  simp [hslash]

/-- Behind a zero byte, erasing the last element changes nothing that the system sees. -/
theorem components_removeFilename_of_zero_mem {text name : Bytes} (hname : slash ∉ name)
    (h : (0 : UInt8) ∈ text) :
    components (removeFilename (text ++ slash :: name)) = components text := by
  rw [removeFilename_append_slash hname]
  have hback : (0 : UInt8) ∉ text.rtakeWhile (· = slash) := fun hmem =>
    absurd (List.mem_rtakeWhile_imp hmem) (by decide)
  have hfront : (0 : UInt8) ∈ text.rdropWhile (· = slash) := by
    rw [← List.rdropWhile_append_rtakeWhile (p := (· = slash)) (l := text), List.mem_append] at h
    exact h.resolve_right hback
  conv_rhs => rw [← List.rdropWhile_append_rtakeWhile (p := (· = slash)) (l := text)]
  rw [components, components, cString_append_of_zero_mem hfront]

/-- A path text is the directory of its entries with empty components behind it, and just this
directory if it holds a zero byte. -/
theorem components_eq_home (text : Bytes) :
    ∃ count, components (shardText text) =
        components (removeFilename (shardText text ++ [slash, 120])) ++ List.replicate count [] ∧
      ((0 : UInt8) ∈ text → count = 0) := by
  have hname : slash ∉ [(120 : UInt8)] := by decide
  by_cases hzero : (0 : UInt8) ∈ text
  · refine ⟨0, ?_, fun _ => rfl⟩
    rw [show ([slash, 120] : Bytes) = slash :: [120] from rfl,
      components_removeFilename_of_zero_mem hname (zero_mem_shardText.2 hzero)]
    simp
  · obtain ⟨count, hcount⟩ := components_removeFilename_append (shardText text) hname
    exact ⟨count, hcount, fun hmem => absurd hmem hzero⟩

/-- Opening a block keeps what is there. -/
theorem keeps_openBlock (dir : FilePath) (text : Bytes) : Preserves Keeps (openBlock dir text) :=
  Preserves.bind keeps_ensureDirectory fun _ => Preserves.ite (fun _ => keeps_openOut)
    fun _ => Preserves.pure none

namespace FFStore

variable {store : FFStore}

/-- The path that the source makes of a key. -/
def place (store : FFStore) (key : Bytes) : FilePath :=
  store.linkDir ++ components (shardText (validateKey store.sha key))

/-- A hashed key has its directory there. -/
theorem place_eq_keyDir {key : Bytes} (h : HexId (validateKey store.sha key)) :
    store.place key = store.keyDir key := by
  rw [place, keyDir, h.components_shardText]

/-- The path of an entry of a key: behind a zero byte it is the path of the key again. -/
theorem entry_path (store : FFStore) (key : Bytes) {name : Bytes} (hslash : slash ∉ name)
    (hzero : (0 : UInt8) ∉ name) :
    store.linkDir ++ components (shardText (validateKey store.sha key) ++ slash :: name) =
      if (0 : UInt8) ∈ validateKey store.sha key then store.place key
      else store.place key ++ [name] := by
  rw [components_append_name _ hslash hzero]
  simp only [zero_mem_shardText]
  split
  · rfl
  · rw [place, List.append_assoc]

/-- The directory that `kv_put` makes for a key. -/
def home (store : FFStore) (key : Bytes) : FilePath :=
  store.linkDir ++
    components (removeFilename (shardText (validateKey store.sha key) ++ [slash, 120]))

/-- The path of a key is its directory with empty components behind it, and just its directory if
the key holds a zero byte. -/
theorem place_eq_home (store : FFStore) (key : Bytes) :
    ∃ count, store.place key = store.home key ++ List.replicate count [] ∧
      ((0 : UInt8) ∈ validateKey store.sha key → count = 0) := by
  obtain ⟨count, hcount, hnone⟩ := components_eq_home (validateKey store.sha key)
  exact ⟨count, by rw [place, home, hcount, List.append_assoc], hnone⟩

/-- The directory of a key is a beginning of its path. -/
theorem home_prefix (store : FFStore) (key : Bytes) : store.home key <+: store.place key := by
  obtain ⟨count, hcount, -⟩ := store.place_eq_home key
  exact ⟨_, hcount.symm⟩

/-- The path of a key leads where its directory leads. -/
theorem normal_place (store : FFStore) (key : Bytes) :
    normal [] (store.place key) = normal [] (store.home key) := by
  obtain ⟨count, hcount, -⟩ := store.place_eq_home key
  rw [hcount, ← normal_filter, List.filter_append, ← normal_filter [] (store.home key)]
  simp

/-- The path of a key is passable if its directory is. -/
theorem passable_place {tree : FileTree} {key : Bytes} (h : tree.Passable (store.home key)) :
    tree.Passable (store.place key) := by
  obtain ⟨count, hcount, -⟩ := store.place_eq_home key
  rw [← FileTree.passable_filter] at h ⊢
  rw [hcount, List.filter_append]
  simpa using h

/-- The link of a value. -/
abbrev linkName (store : FFStore) (value : Bytes) : Name := toHex (store.sha.hash value)

/-- What linking a block under a key did, however it ended: new directories at the stages of the
path, at most one link behind it, and attempts to create only what was missing. -/
structure LinkedAlong (store : FFStore) (key value : Bytes) (before : World)
    (result : EStateM.Result Exception World Bool) : Prop where
  grows : FileTree.Grows (fun path node =>
    (node = .dir ∧ ∃ stage, stage <+: store.place key ∧ path = normal [] stage) ∨
      (node = .link (store.block value) ∧ (0 : UInt8) ∉ validateKey store.sha key ∧
        path = normal [] (store.place key) ++ [store.linkName value]))
    before.tree result.state.tree
  log : ∀ path ∈ result.state.log, path ∈ before.log ∨
    (∃ front name, front ++ [name] <+: store.place key ∧ Proper name ∧
      normal [] path = normal [] (front ++ [name]) ∧ result.state.tree.Passable front ∧
      before.tree.get (normal [] path) ≠ some .dir) ∨
    path = store.place key ++ [store.linkName value]
  leads : ∀ after, result = .ok true after → (0 : UInt8) ∉ validateKey store.sha key →
    after.tree.Passable (store.place key) ∧
      after.tree.get (normal [] (store.place key) ++ [store.linkName value]) ≠ none

/-- A call that did nothing linked nothing. -/
theorem LinkedAlong.refl (store : FFStore) (key value : Bytes) (world : World)
    {result : EStateM.Result Exception World Bool} (hstate : result.state = world)
    (hresult : ∀ after, result ≠ .ok true after) : LinkedAlong store key value world result :=
  ⟨hstate ▸ .refl _, fun _ hpath => Or.inl (hstate ▸ hpath), fun after h => absurd h (hresult after)⟩

section Calls

variable {world : World}

/-- The end of `kv_put`, once the directory of the key is there. -/
def linkBlock (store : FFStore) (key hash : Bytes) : Storage Bool := do
  let symlink := store.linkDir ++ components (shardText (validateKey store.sha key) ++ slash :: hash)
  if ← present symlink then return true
  else do
    let target ← pathText hash
    createSymlink (store.dataDir ++ components target) symlink
    return true

/-- `kv_put` makes the directory of the key and then links the block. -/
theorem run_putLink_eq (store : FFStore) (key value : Bytes) :
    (store.putLink (validateKey store.sha key) (store.linkName value)).run world =
      (ensureDirectory (store.home key) >>= fun made =>
        if made = true then store.linkBlock key (store.linkName value)
        else return false : Storage Bool).run world := by
  simp only [putLink, EStateM.run_bind, run_pathText_validateKey]
  rfl

/-- Linking a block, once the path of the key leads to something. -/
theorem linkedAlong_linkBlock {key : Bytes} (value : Bytes) (hlinks : world.tree.LinksToFiles)
    (hthere : (world.tree.resolve (store.home key)).isSome) :
    LinkedAlong store key value world ((store.linkBlock key (store.linkName value)).run world) := by
  have hhex := store.sha.hexId value
  have hslash : slash ∉ store.linkName value := hhex.not_mem (by decide)
  have hzeroName : (0 : UInt8) ∉ store.linkName value := hhex.not_mem (by decide)
  obtain ⟨count, hcount, hnone⟩ := store.place_eq_home key
  simp only [linkBlock, EStateM.run_bind, run_present, entry_path store key hslash hzeroName]
  by_cases hzero : (0 : UInt8) ∈ validateKey store.sha key
  · -- the path is cut at the zero byte, so it is the directory, which is there
    have hplace : store.place key = store.home key := by
      rw [hcount, hnone hzero, List.replicate_zero, List.append_nil]
    rw [if_pos hzero, hplace, hthere]
    exact ⟨.refl _, fun _ hpath => Or.inl hpath, fun _ _ hnot => absurd hzero hnot⟩
  rw [if_neg hzero]
  have hnormal : normal [] (store.place key ++ [store.linkName value]) =
      normal [] (store.place key) ++ [store.linkName value] := by
    rw [normal_append, normal_cons, normal_nil, enter_of_proper hhex.validName.1]
  cases hresolve : world.tree.resolve (store.place key ++ [store.linkName value]) with
  | some reached =>
      refine ⟨.refl _, fun _ hpath => Or.inl hpath, fun after hafter _ => ?_⟩
      simp only [Option.isSome_some, if_true, EStateM.run_pure, EStateM.Result.ok.injEq,
        true_and] at hafter
      subst hafter
      refine ⟨FileTree.passable_of_resolve_snoc hlinks.avoidDirs hresolve, hnormal ▸ ?_⟩
      rcases FileTree.resolve_cases hlinks hresolve with ⟨hpass, -⟩ |
        ⟨dir, name, content, -, -, -, hfile, rfl | hlink⟩
      · simp [hpass.get_normal]
      · simp [hfile]
      · simp [hlink]
  | none =>
      simp only [Option.isSome_none, Bool.false_eq_true, if_false, EStateM.run_bind,
        run_pathText hhex, hhex.components_shardText, createSymlink]
      rw [show store.dataDir ++ shard (store.linkName value) = store.block value from rfl]
      rcases createNode_cases (ε := Exception) hlinks.avoidDirs
        (store.place key ++ [store.linkName value]) (.link (store.block value)) with
        hrun | ⟨dir, name, tree, hpass, -, hpath, hcreate, hrun⟩
      · rw [hrun]
        refine ⟨.refl _, fun path hpath => ?_, fun _ hafter => by simp at hafter⟩
        rcases List.mem_append.1 hpath with hpath | hpath
        · exact Or.inl hpath
        · exact Or.inr (Or.inr (List.mem_singleton.1 hpath))
      · rw [hrun]
        rw [List.dropLast_concat] at hpass
        have hgrows : FileTree.Grows (fun path node => node = .link (store.block value) ∧
            path = normal [] (store.place key) ++ [store.linkName value]) world.tree tree :=
          FileTree.grows_of_create hcreate ⟨rfl, by rw [← hpath, hnormal]⟩
        refine ⟨hgrows.imp fun path node h => Or.inr ⟨h.1, hzero, h.2⟩, fun path hpath => ?_,
          fun after hafter _ => ?_⟩
        · rcases List.mem_append.1 hpath with hpath | hpath
          · exact Or.inl hpath
          · exact Or.inr (Or.inr (List.mem_singleton.1 hpath))
        · simp only [EStateM.run_pure, EStateM.Result.ok.injEq, true_and] at hafter
          rw [← hafter]
          refine ⟨hpass.mono fun path hpath => hgrows.get_of_some hpath, ?_⟩
          rw [← hnormal, hpath]
          simp [FileTree.get_create hcreate]

/-- Making the directory of a key before linking a block there. -/
theorem LinkedAlong.after_ensure {key value : Bytes} {made : World}
    {result : EStateM.Result Exception World Bool}
    (hgrows : FileTree.Grows (fun path node => node = .dir ∧
      ∃ stage, stage <+: store.place key ∧ path = normal [] stage) world.tree made.tree)
    (hlog : ∀ path ∈ made.log, path ∈ world.log ∨
      ∃ front name, front ++ [name] <+: store.place key ∧ Proper name ∧
        normal [] path = normal [] (front ++ [name]) ∧ made.tree.Passable front ∧
        world.tree.get (normal [] path) ≠ some .dir)
    (h : LinkedAlong store key value made result) : LinkedAlong store key value world result := by
  have hkept : ∀ path, made.tree.get path = some .dir → result.state.tree.get path = some .dir :=
    fun path hpath => h.grows.get_of_some hpath
  refine ⟨(hgrows.imp fun _ _ hnew => Or.inl hnew).trans h.grows, fun path hpath => ?_, h.leads⟩
  rcases h.log path hpath with hmade | ⟨front, name, hstage, hname, hnormal, hpass, hnode⟩ | hlink
  · rcases hlog path hmade with hold | ⟨front, name, hstage, hname, hnormal, hpass, hnode⟩
    · exact Or.inl hold
    · exact Or.inr (Or.inl ⟨front, name, hstage, hname, hnormal, hpass.mono hkept, hnode⟩)
  · exact Or.inr (Or.inl ⟨front, name, hstage, hname, hnormal, hpass,
      fun hdir => hnode (hgrows.get_of_some hdir)⟩)
  · exact Or.inr (Or.inr hlink)

/-- Linking a block under a key, in a tree whose links lead to files. -/
theorem linkedAlong_putLink (store : FFStore) (key value : Bytes) (hlinks : world.tree.LinksToFiles) :
    LinkedAlong store key value world
      ((store.putLink (validateKey store.sha key) (store.linkName value)).run world) := by
  rw [run_putLink_eq, EStateM.run_bind]
  rcases wentAlong_ensureDirectory (ε := Exception) (store.home key) hlinks with
    ⟨hthere, hrun⟩ | ⟨hresolve, hwent⟩
  · rw [hrun]
    exact linkedAlong_linkBlock value hlinks hthere
  have hgrows : ∀ {result : EStateM.Result Exception World Bool},
      WentAlong [] ((store.home key).filter (· ≠ [])) world result →
      FileTree.Grows (fun path node => node = .dir ∧
        ∃ stage, stage <+: store.place key ∧ path = normal [] stage)
        world.tree result.state.tree := by
    intro result hwent
    refine hwent.grows.imp ?_
    rintro path node ⟨rfl, stage, hstage, rfl⟩
    obtain ⟨front, hfront, heq⟩ := FileTree.exists_prefix_of_filter hstage
    exact ⟨rfl, front, hfront.trans (store.home_prefix key), by rw [List.nil_append, heq]⟩
  have hlog : ∀ {result : EStateM.Result Exception World Bool},
      WentAlong [] ((store.home key).filter (· ≠ [])) world result →
      ∀ path ∈ result.state.log, path ∈ world.log ∨
        ∃ front name, front ++ [name] <+: store.place key ∧ Proper name ∧
          normal [] path = normal [] (front ++ [name]) ∧ result.state.tree.Passable front ∧
          world.tree.get (normal [] path) ≠ some .dir := by
    intro result hwent path hpath
    rcases hwent.log path hpath with hold | ⟨stage, name, hstage, hname, rfl, hpass, hnode⟩
    · exact Or.inl hold
    · obtain ⟨front, hfront, rfl⟩ := snoc_prefix_filter hstage
      refine Or.inr ⟨front, name, hfront.trans (store.home_prefix key), hname, ?_,
        FileTree.passable_filter.1 (by simpa using hpass), hnode⟩
      rw [List.nil_append, normal_append, normal_append, normal_filter]
  cases hrun : (ensureDirectory (store.home key) : Storage Bool).run world with
  | error fault made =>
      rw [hrun] at hwent
      exact (LinkedAlong.refl store key value made rfl (by simp)).after_ensure (hgrows hwent)
        (hlog hwent)
  | ok flag made =>
      rw [hrun] at hwent
      cases flag with
      | false =>
          exact (LinkedAlong.refl store key value made rfl (by simp)).after_ensure (hgrows hwent)
            (hlog hwent)
      | true =>
          have hpass : made.tree.Passable (store.home key) :=
            FileTree.passable_filter.1 (by simpa using hwent.passable true made rfl)
          have hthere : (made.tree.resolve (store.home key)).isSome := by
            rw [FileTree.resolve_of_passable hpass]
            rfl
          exact (linkedAlong_linkBlock value hwent.links hthere).after_ensure (hgrows hwent)
            (hlog hwent)

/-- Putting a value under any key stores its block and then links it. -/
theorem run_kvPut_eq (key value : Bytes) (hsound : Sound store world.tree) :
    ∃ middle, (store.storeBlock value).run world = .ok true middle ∧
      Stored (store.block value) value world.tree middle.tree ∧ Sound store middle.tree ∧
      (store.kvPut key value).run world =
        (store.putLink (validateKey store.sha key) (store.linkName value)).run middle := by
  obtain ⟨middle, hrun, hstored⟩ := run_storeBlock hsound value
  refine ⟨middle, hrun, hstored, hsound.of_stored hstored, ?_⟩
  simp only [kvPut, EStateM.run_bind, hrun, if_true]

/-! ## Getting any key -/

/-- An entry of a key leads to a file with these bytes. -/
def LeadsTo (store : FFStore) (tree : FileTree) (key : Bytes) (name : Name) (content : Bytes) :
    Prop :=
  ∃ file, tree.resolve (store.linkDir ++
      components (shardText (validateKey store.sha key) ++ slash :: name)) = some file ∧
    tree.get file = some (.file content)

/-- What getting a key may read: the bytes, cut to their number in 32 bits, of a file to which an
entry of the directory of the key leads. -/
def Held (store : FFStore) (tree : FileTree) (key : Bytes) (name : Name) (text : Bytes) : Prop :=
  ∃ dir content, tree.resolve (store.place key) = some dir ∧ name ∈ tree.names dir ∧
    LeadsTo store tree key name content ∧ text = content.take (content.length % 2 ^ 32)

/-- Reading an entry of a key fails, or yields the bytes of the file to which it leads. -/
theorem run_readEntry_cases (store : FFStore) (key : Bytes) (name : Name) (world : World) :
    ∃ after, after.tree = world.tree ∧
      (((∀ content, ¬ LeadsTo store world.tree key name content) ∧
          ((store.readEntry (shardText (validateKey store.sha key)) name).run world =
              .ok (false, []) after ∨
            (store.readEntry (shardText (validateKey store.sha key)) name).run world =
              .error .filesystemError after)) ∨
        ∃ content, LeadsTo store world.tree key name content ∧
          (store.readEntry (shardText (validateKey store.sha key)) name).run world =
            .ok (true, [(name, content.take (content.length % 2 ^ 32))]) after) := by
  refine ⟨{ world with log := world.log ++ [store.linkDir ++
    components (shardText (validateKey store.sha key) ++ slash :: name)] }, rfl, ?_⟩
  simp only [readEntry, EStateM.run_bind, run_openIn, LeadsTo]
  cases hentry : world.tree.resolve (store.linkDir ++
      components (shardText (validateKey store.sha key) ++ slash :: name)) with
  | none => exact Or.inl ⟨by simp, Or.inl rfl⟩
  | some file =>
      simp only [fileSize, EStateM.run_bind, EStateM.run_get, hentry, Option.bind_some,
        Option.some.injEq, exists_eq_left']
      cases hnode : world.tree.get file with
      | none => exact Or.inl ⟨by simp, Or.inr rfl⟩
      | some node =>
          cases node with
          | dir => exact Or.inl ⟨by simp, Or.inr rfl⟩
          | link target => exact Or.inl ⟨by simp, Or.inr rfl⟩
          | file content =>
              refine Or.inr ⟨content, rfl, ?_⟩
              simp [FileTree.content, hnode]

/-- Control that flows off the end of `kv_get` comes back with nothing, or it does not come back. -/
theorem flowed_cases (platform : Platform) :
    (∃ found, platform.flowOff = some found ∧ platform.flowed = pure (found, [])) ∨
      platform.flowOff = none ∧ platform.flowed = throw .undefined := by
  rw [Platform.flowed]
  cases platform.flowOff with
  | none => exact Or.inr ⟨rfl, rfl⟩
  | some found => exact Or.inl ⟨found, rfl, rfl⟩

/-- It changes nothing. -/
theorem preserves_flowed {R : World → World → Prop} [Std.Refl R] (platform : Platform) :
    Preserves R platform.flowed := by
  rcases flowed_cases platform with ⟨found, -, hflow⟩ | ⟨-, hflow⟩
  · exact hflow ▸ Preserves.pure _
  · exact hflow ▸ Preserves.throw _


/-- Where it comes back, nothing was read. -/
theorem flowed_eq_ok {platform : Platform} {found : Bool} {result : KvResMap} {last : World}
    (h : platform.flowed.run world = .ok (found, result) last) :
    platform.flowOff = some found ∧ result = [] := by
  rcases flowed_cases platform with ⟨value, hvalue, hflow⟩ | ⟨-, hflow⟩
  · simp only [hflow, run_pure, Result.ok.injEq, Prod.mk.injEq] at h
    exact ⟨hvalue.trans (congrArg some h.1.1), h.1.2.symm⟩
  · simp [hflow] at h

/-- Getting a key leaves the tree alone: nothing is found, the control flows off the end of the
function, or the bytes of a file are read. -/
theorem run_kvGet_cases (store : FFStore) (platform : Platform) (key : Bytes) (world : World) :
    ∃ after, after.tree = world.tree ∧
      ((store.kvGet platform key).run world = .ok (false, []) after ∨
        (store.kvGet platform key).run world = platform.flowed.run after ∨
        ∃ name text, Held store world.tree key name text ∧
          (store.kvGet platform key).run world = .ok (true, [(name, text)]) after) := by
  rw [kvGet, EStateM.run_tryCatch_eq]
  simp only [EStateM.run_bind, run_pathText_validateKey, run_isDirectory]
  rw [show store.linkDir ++ components (shardText (validateKey store.sha key)) =
    store.place key from rfl]
  by_cases hdir : (world.tree.resolve (store.place key)).bind world.tree.get = some .dir
  · obtain ⟨dir, hresolve, hnode⟩ := Option.bind_eq_some_iff.1 hdir
    simp only [hresolve, Option.bind_some, hnode, decide_true, if_true, EStateM.run_bind,
      listDirectory, run_record, EStateM.run_get]
    cases horder : platform.listing.order (world.tree.names dir) with
    | nil =>
        refine ⟨{ world with log := world.log ++ [store.place key] }, rfl, Or.inr (Or.inl ?_)⟩
        rcases flowed_cases platform with ⟨found, -, hflow⟩ | ⟨-, hflow⟩
        · simp [hflow]
        · rw [hflow]
          rfl
    | cons name rest =>
        have hname : name ∈ world.tree.names dir :=
          (platform.listing.perm _).mem_iff.1 (horder ▸ List.mem_cons_self)
        obtain ⟨after, htree, hcases⟩ := store.run_readEntry_cases key name
          { world with log := world.log ++ [store.place key] }
        refine ⟨after, htree, ?_⟩
        rcases hcases with ⟨-, hrun | hrun⟩ | ⟨content, hleads, hrun⟩
        · exact Or.inl (by simp [hrun])
        · exact Or.inl (by simp [hrun])
        · exact Or.inr (Or.inr ⟨name, _, ⟨dir, content, hresolve, hname, hleads, rfl⟩,
            by simp [hrun]⟩)
  · refine ⟨world, rfl, Or.inl ?_⟩
    simp [hdir]

/-- The path of a key leads to a directory, and the entry that the system lists there first leads
to a file. Where nothing is listed, the control flows off the end of the function. -/
def Finds (store : FFStore) (platform : Platform) (tree : FileTree) (key : Bytes) : Prop :=
  ∃ dir, tree.resolve (store.place key) = some dir ∧ tree.get dir = some .dir ∧
    match platform.listing.order (tree.names dir) with
    | [] => platform.flowOff = some true
    | name :: _ => ∃ content, LeadsTo store tree key name content

/-- Getting a key succeeds exactly if something is found. -/
theorem run_kvGet_true_iff (store : FFStore) (platform : Platform) (key : Bytes) (world : World) :
    (∃ result last, (store.kvGet platform key).run world = .ok (true, result) last) ↔
      Finds store platform world.tree key := by
  rw [kvGet, EStateM.run_tryCatch_eq]
  simp only [EStateM.run_bind, run_pathText_validateKey, run_isDirectory]
  rw [show store.linkDir ++ components (shardText (validateKey store.sha key)) =
    store.place key from rfl]
  by_cases hdir : (world.tree.resolve (store.place key)).bind world.tree.get = some .dir
  · obtain ⟨dir, hresolve, hnode⟩ := Option.bind_eq_some_iff.1 hdir
    simp only [hresolve, Option.bind_some, hnode, decide_true, if_true, EStateM.run_bind,
      listDirectory, run_record, EStateM.run_get, Finds, Option.some.injEq, exists_eq_left',
      true_and]
    cases platform.listing.order (world.tree.names dir) with
    | nil =>
        rcases flowed_cases platform with ⟨found, hfound, hflow⟩ | ⟨hnone, hflow⟩
        · simp [hflow, hfound]
        · simp [hflow, hnone]
    | cons name rest =>
        obtain ⟨after, -, hcases⟩ := store.run_readEntry_cases key name
          { world with log := world.log ++ [store.place key] }
        rcases hcases with ⟨hnot, hrun | hrun⟩ | ⟨content, hleads, hrun⟩
        · simpa [hrun] using hnot
        · simpa [hrun] using hnot
        · simpa [hrun] using ⟨content, hleads⟩
  · refine iff_of_false (by simp [hdir]) ?_
    rintro ⟨dir, hresolve, hnode, -⟩
    exact hdir (by rw [hresolve, Option.bind_some, hnode])

/-- Getting a key whose directory lists first an entry that leads to a file. -/
theorem run_kvGet_first {key : Bytes} {name : Name} {rest : List Name} {file : FilePath}
    {content : Bytes} (platform : Platform) (hpass : world.tree.Passable (store.place key))
    (hzero : (0 : UInt8) ∉ validateKey store.sha key)
    (horder : platform.listing.order (world.tree.names (normal [] (store.place key))) =
      name :: rest)
    (hentry : world.tree.resolve (store.place key ++ [name]) = some file)
    (hfile : world.tree.get file = some (.file content)) :
    ∃ after, (store.kvGet platform key).run world =
        .ok (true, [(name, content.take (content.length % 2 ^ 32))]) after ∧
      after.tree = world.tree := by
  have hmem : name ∈ world.tree.names (normal [] (store.place key)) :=
    (platform.listing.perm _).mem_iff.1 (horder ▸ List.mem_cons_self)
  have hname : ValidName name := FileTree.get_valid (FileTree.mem_names.1 hmem)
  have hpath := entry_path store key hname.2.1 hname.2.2.1
  rw [if_neg hzero] at hpath
  refine ⟨{ world with log :=
    world.log ++ [store.place key] ++ [store.place key ++ [name]] }, ?_, rfl⟩
  rw [kvGet, EStateM.run_tryCatch_eq]
  simp only [EStateM.run_bind, run_pathText_validateKey, run_isDirectory]
  rw [show store.linkDir ++ components (shardText (validateKey store.sha key)) =
    store.place key from rfl, FileTree.resolve_of_passable hpass, Option.bind_some,
    hpass.get_normal]
  simp [listDirectory, FileTree.resolve_of_passable hpass, hpass.get_normal, horder, readEntry,
    hpath, hentry, fileSize, hfile, FileTree.content]

end Calls

/-! ## Removing any key -/

/-- The path of a key, or of an entry in its directory. -/
def OfKey (store : FFStore) (key : Bytes) (path : FilePath) : Prop :=
  path = store.place key ∨ ∃ name, ValidName name ∧ path = store.place key ++ [name]

/-- What `kv_remove` makes of the name of an entry is a path of the key. -/
theorem ofKey_entry (store : FFStore) (key : Bytes) {name : Name} (hname : ValidName name) :
    OfKey store key
      (store.linkDir ++ components (shardText (validateKey store.sha key) ++ slash :: name)) := by
  rw [entry_path store key hname.2.1 hname.2.2.1]
  split
  · exact Or.inl rfl
  · exact Or.inr ⟨name, hname, rfl⟩

section Removal

variable {R : World → World → Prop} [Std.Refl R] {key : Bytes}

/-- Making a path text changes nothing. -/
theorem preserves_pathText (text : Bytes) : Preserves R (pathText text) := by
  rw [pathText]
  split
  · exact Preserves.pure _
  · exact Preserves.throw _

/-- The path text of a key is the one that is returned. -/
theorem returns_pathText (store : FFStore) (key : Bytes) :
    Returns (· = shardText (validateKey store.sha key)) (pathText (validateKey store.sha key)) := by
  intro world text last hrun
  rw [run_pathText_validateKey, Result.ok.injEq] at hrun
  exact hrun.1.symm

variable [IsTrans World R]

/-- Removing the entries of a directory one by one. -/
theorem preserves_removeEntries {text : Bytes} {names : List Name}
    (h : ∀ name ∈ names, Preserves R
      (remove (store.linkDir ++ components (text ++ slash :: name)) : Storage Bool)) :
    Preserves R (store.removeEntries text names) := by
  induction names with
  | nil => exact Preserves.pure true
  | cons name names ih =>
      exact Preserves.bind (h name (by simp)) fun removed =>
        Preserves.ite (fun _ => ih fun other hother => h other (by simp [hother]))
          fun _ => Preserves.pure false

/-- Removing what a path text names. -/
theorem preserves_removeAllText {dir : FilePath} {text : Bytes}
    (hrecord : Preserves R (record (dir ++ components text) : Storage Unit))
    (hall : Preserves R (removeAll (dir ++ components text) : Storage Nat)) :
    Preserves R (removeAllText dir text) :=
  Preserves.bind (fun world => refl_of R world) fun _ => Preserves.ite
    (fun _ => Preserves.bind hrecord fun _ => Preserves.throw _) fun _ => hall

/-- The end of `kv_remove`, when there was nothing to remove, removes paths of the key. -/
theorem preserves_removeListed (platform : Platform)
    (hlist : Preserves R (listDirectory platform.listing (store.place key) : Storage (List Name)))
    (hremove : ∀ path, OfKey store key path → Preserves R (remove path : Storage Bool))
    (count : Nat) :
    Preserves R (if count = 0 then do
        let names ← listDirectory platform.listing (store.place key)
        if ← store.removeEntries (shardText (validateKey store.sha key)) names then
          remove (store.place key)
        else return false
      else return true : Storage Bool) := by
  refine Preserves.ite (fun _ => ?_) fun _ => Preserves.pure _
  refine Preserves.bind_of_returns hlist (returns_listDirectory _) fun names hnames => ?_
  refine Preserves.bind (preserves_removeEntries fun name hname =>
    hremove _ (ofKey_entry store key (hnames name hname))) fun removed => ?_
  exact Preserves.ite (fun _ => hremove _ (Or.inl rfl)) fun _ => Preserves.pure _

/-- Removing a key is made of calls on its path and on entries of its directory. -/
theorem preserves_kvRemove (platform : Platform)
    (hrecord : Preserves R (record (store.place key) : Storage Unit))
    (hall : Preserves R (removeAll (store.place key) : Storage Nat))
    (hlist : Preserves R (listDirectory platform.listing (store.place key) : Storage (List Name)))
    (hremove : ∀ path, OfKey store key path → Preserves R (remove path : Storage Bool)) :
    Preserves R (store.kvRemove platform key) := by
  refine Preserves.bind_of_returns (preserves_pathText _) (returns_pathText store key) ?_
  rintro text rfl
  exact Preserves.bind (preserves_removeAllText hrecord hall) fun count =>
    preserves_removeListed platform hlist hremove count

end Removal

/-- Where the path of a key leads. -/
abbrev spot (store : FFStore) (key : Bytes) : FilePath := normal [] (store.place key)

/-- A path of a key leads to its spot or below. -/
theorem OfKey.spot_prefix {key : Bytes} {path : FilePath} (h : OfKey store key path) :
    store.spot key <+: normal [] path := by
  rcases h with rfl | ⟨name, hname, rfl⟩
  · exact List.prefix_refl _
  · rw [normal_append, normal_cons, normal_nil, enter_of_proper hname.1]
    exact List.prefix_append _ _

/-- Removing a key removes nothing but its spot and what is below. -/
theorem removes_kvRemove (store : FFStore) (platform : Platform) (key : Bytes) :
    Preserves (Removes (store.spot key)) (store.kvRemove platform key) :=
  preserves_kvRemove platform (fun _ => removes_of_tree_eq rfl)
    (removes_removeAll (List.prefix_refl _)) (removes_listDirectory _) fun _ hpath =>
      removes_remove hpath.spot_prefix

end FFStore

end AnarchNet
