import AnarchNet.FFStore.Independence
import AnarchNet.KvSlots
import AnarchNet.Lib.FileBare

/-!
# Empty directories of keys in the flat-file store

The loop of `kv_get` over the directory of a key has its only exits inside the loop, so the function
ends without a `return` where that directory is empty. A put leaves such a directory when the call
fails that is to create the first entry in it, and a removal when it removes the last entry through
the path of another key. Where no call of a run does so, `kv_get` is defined.
-/

namespace AnarchNet.FFStore

open FileSystem EStateM

variable {store : FFStore}

/-- The directories of the keys shorter than 128 bytes. -/
def shortDirs (store : FFStore) : Set FilePath :=
  {dir | ∃ key : Bytes, key.length < 128 ∧ dir = store.keyDir key}

/-- The path of the link of a value under a key, as the source makes it. -/
def linkAt (store : FFStore) (key value : Bytes) : FilePath :=
  store.linkDir ++ components (shardText (validateKey store.sha key) ++ slash :: store.linkName value)

/-- A put leaves a directory empty: the directory was not there, and the call that is to create the
first entry in it fails, or there is no such call. -/
def Strands (store : FFStore) (key value : Bytes) (state : FaultyWorld) (dir : FilePath) : Prop :=
  ∃ stored, (store.storeBlockFaulty value).run state = .ok true stored ∧
    stored.world.tree.get dir = none ∧
    (StopsBehind Exception (store.home key) stored dir ∨
      dir = normal [] (store.home key) ∧ ∃ flag made,
        (ensureDirectoryFaulty (store.home key) : FaultyStorage Bool).run stored = .ok flag made ∧
        (flag = true → (made.world.tree.resolve (store.linkAt key value)).isSome ∨
          ∃ last, (createSymlinkFaulty (store.block value) (store.linkAt key value) :
            FaultyStorage Unit).run made = .error .filesystemError last))

/-- A removal leaves a directory empty: its only entry is what the key names, or its path ends in a
dot and leads to the directory. -/
def Strips (store : FFStore) (key : Bytes) (tree : FileTree) (dir : FilePath) : Prop :=
  ((0 : UInt8) ∈ validateKey store.sha key → tree.names (store.spot key) = []) ∧
    ((EndsInName (store.place key) ∧ ∃ name, store.spot key = dir ++ [name] ∧
        ∀ other, tree.get (dir ++ [other]) ≠ none → other = name) ∨
      ¬ EndsInName (store.place key) ∧ store.spot key = dir)

/-- The path of the key does not lead upwards, and the call does not leave the directory of a short
key empty. -/
def Spares (store : FFStore) (world : World) : KvCall → Prop
  | .put key value faults => dotDot ∉ store.place key ∧
      ∀ dir ∈ store.shortDirs, ¬ Strands store key value ⟨world, faults⟩ dir
  | .remove key => dotDot ∉ store.place key ∧
      ∀ dir ∈ store.shortDirs, ¬ Strips store key world.tree dir

/-- The data directory holds blocks, every link leads from the link directory to a block, and there
are no files in the link directory. -/
structure Whole (store : FFStore) (tree : FileTree) : Prop where
  blocks : BlockDir store.dataDir tree
  links : ∀ path target, tree.get path = some (.link target) →
    store.linkDir <+: path ∧ ∃ id, HexId id ∧ target = store.dataDir ++ shard id ∧
      ∃ content, tree.get target = some (.file content)
  noFiles : ∀ rest content, tree.get (store.linkDir ++ rest) ≠ some (.file content)

/-- No directory of a short key is empty. -/
structure Stocked (store : FFStore) (tree : FileTree) : Prop extends Whole store tree where
  stocked : ∀ dir ∈ store.shortDirs, ¬ tree.Bare dir

namespace Whole

variable {before after : FileTree}

/-- The links lead to files. -/
theorem linksToFiles (h : Whole store before) : before.LinksToFiles := by
  intro path target hlink
  obtain ⟨-, id, hid, rfl, hfile⟩ := h.links path target hlink
  exact ⟨(validPath_append.2 ⟨store.dataDir_valid, hid.validPath_shard⟩).plain, hfile⟩

/-- A stored block. -/
theorem of_stored (h : Whole store before) {value : Bytes}
    (hstored : Stored (store.block value) value before after) : Whole store after := by
  refine ⟨h.blocks.of_stored hstored, fun path target hlink => ?_, fun rest content => ?_⟩
  · obtain ⟨hpath, id, hid, rfl, old, hfile⟩ := h.links path target (hstored.get_link hlink)
    refine ⟨hpath, id, hid, rfl, ?_⟩
    by_cases heq : id = toHex (store.sha.hash value)
    · exact ⟨value, heq ▸ hstored.get_file⟩
    · refine ⟨old, ?_⟩
      rw [hstored.get_other, hfile]
      rw [block, List.prefix_append_right_inj]
      exact fun hpre => heq (id_eq_of_shard_le hpre)
  · rw [get_link_of_stored hstored]
    exact h.noFiles rest content

/-- New directories above a block. -/
theorem of_blockDirs (h : Whole store before) {value : Bytes}
    (hdirs : FileTree.DirsAlong (store.blockHome value) before after) : Whole store after := by
  have hplain := (validPath_append.2 ⟨store.dataDir_valid, fun name hname =>
    (store.sha.hexId value).validPath_shard name (List.mem_of_mem_dropLast hname)⟩).plain
  rw [blockHome_eq] at hdirs
  have hget := fun path => hdirs.get hplain path
  refine ⟨⟨hdirs.get_of_some h.blocks.base, fun id above hid habove hne => ?_, fun id hid => ?_⟩,
    fun path target hlink => ?_, fun rest content => ?_⟩
  · rcases hget (store.dataDir ++ above) with heq | ⟨-, hdir, -⟩
    · rw [heq]
      exact h.blocks.above id above hid habove hne
    · exact Or.inr hdir
  · rcases hget (store.dataDir ++ shard id) with heq | ⟨-, -, hpre⟩
    · rw [heq]
      exact h.blocks.files id hid
    · rw [List.prefix_append_right_inj] at hpre
      have hlength := hpre.length_le
      simp [shard] at hlength
  · rcases hget path with heq | ⟨-, hdir, -⟩
    · obtain ⟨hpath, id, hid, rfl, content, hfile⟩ := h.links path target (heq ▸ hlink)
      exact ⟨hpath, id, hid, rfl, content, hdirs.get_of_some hfile⟩
    · simp [hdir] at hlink
  · rcases hget (store.linkDir ++ rest) with heq | ⟨-, hdir, -⟩
    · rw [heq]
      exact h.noFiles rest content
    · simp [hdir]

/-- New nodes at the path of a key that does not lead upwards. -/
theorem of_linked (h : Whole store before) {key value : Bytes} (hup : dotDot ∉ store.place key)
    (hvalue : before.get (store.block value) = some (.file value))
    (hgrows : FileTree.Grows (fun path node =>
      (node = .dir ∧ ∃ stage, stage <+: store.place key ∧ path = normal [] stage) ∨
        (node = .link (store.block value) ∧
          path = normal [] (store.place key) ++ [store.linkName value])) before after) :
    Whole store after := by
  obtain ⟨tail, htail⟩ := linkDir_prefix_spot hup
  have hnew : FileTree.Grows (fun path node => (node = .dir ∧ path <+: store.spot key) ∨
      (node = .link (store.block value) ∧ path = store.spot key ++ [store.linkName value]))
      before after := hgrows.imp (by
    rintro path node (⟨rfl, stage, hstage, rfl⟩ | ⟨rfl, rfl⟩)
    · exact Or.inl ⟨rfl, normal_prefix_normal hup hstage []⟩
    · exact Or.inr ⟨rfl, rfl⟩)
  have hdata : ∀ rest, after.get (store.dataDir ++ rest) = before.get (store.dataDir ++ rest) := by
    intro rest
    rcases hnew.get (store.dataDir ++ rest) with heq | ⟨-, node, -, ⟨-, hpre⟩ | ⟨-, heq⟩⟩
    · exact heq
    · rw [← htail] at hpre
      exact absurd hpre (store.not_data_prefix_link _ _)
    · rw [← htail, List.append_assoc] at heq
      exact absurd heq.symm (store.link_ne_data _ _)
  refine ⟨h.blocks.congr hdata, fun path target hlink => ?_, fun rest content hfile => ?_⟩
  · rcases hnew.get path with heq | ⟨-, node, hnode, ⟨rfl, -⟩ | ⟨rfl, hpath⟩⟩
    · obtain ⟨hpath, id, hid, rfl, content, hfile⟩ := h.links path target (heq ▸ hlink)
      exact ⟨hpath, id, hid, rfl, content, hnew.get_of_some hfile⟩
    · simp [hnode] at hlink
    · rw [hnode, Option.some.injEq, Node.link.injEq] at hlink
      refine ⟨?_, _, store.sha.hexId value, hlink.symm, value, hlink ▸ hnew.get_of_some hvalue⟩
      rw [hpath, ← htail, List.append_assoc]
      exact List.prefix_append _ _
  · rcases hnew.get (store.linkDir ++ rest) with heq | ⟨-, node, hnode, ⟨rfl, -⟩ | ⟨rfl, -⟩⟩
    · exact h.noFiles rest content (heq ▸ hfile)
    · simp [hnode] at hfile
    · simp [hnode] at hfile

/-- Removed nodes in the link directory. -/
theorem of_shrinks (h : Whole store before) {spot : FilePath} (hspot : store.linkDir <+: spot)
    (hshrinks : FileTree.Shrinks spot before after) : Whole store after := by
  obtain ⟨tail, rfl⟩ := hspot
  have hdata : ∀ rest, after.get (store.dataDir ++ rest) = before.get (store.dataDir ++ rest) :=
    fun rest => hshrinks.get_other (store.not_link_prefix_data _ _)
  refine ⟨h.blocks.congr hdata, fun path target hlink => ?_, fun rest content hfile =>
    h.noFiles rest content (hshrinks.get_of_some hfile)⟩
  obtain ⟨hpath, id, hid, rfl, content, hfile⟩ :=
    h.links path target (hshrinks.get_of_some hlink)
  exact ⟨hpath, id, hid, rfl, content, by rw [hdata, hfile]⟩

end Whole

section Puts

variable {state : FaultyWorld} {key value : Bytes}

/-- Storing a block with calls that may fail does not touch the link directory. When it returns
true, the block is there. -/
theorem Whole.storeBlockFaulty (h : Whole store state.world.tree) (value : Bytes) :
    Whole store ((store.storeBlockFaulty value).run state).state.world.tree ∧
      (∀ rest, ((store.storeBlockFaulty value).run state).state.world.tree.get
          (store.linkDir ++ rest) = state.world.tree.get (store.linkDir ++ rest)) ∧
      (((store.storeBlockFaulty value).run state).isTrue = true →
        ((store.storeBlockFaulty value).run state).state.world.tree.get (store.block value) =
          some (.file value)) := by
  rcases store.run_storeBlockFaulty_cases value h.linksToFiles with ⟨faults, hsame⟩ | ⟨hfalse, hdirs⟩
  · obtain ⟨after, hrun, hstored⟩ := run_storeBlock_of_blocks h.blocks h.linksToFiles value
    rw [hsame, hrun]
    exact ⟨h.of_stored hstored, get_link_of_stored hstored, fun _ => hstored.get_file⟩
  · refine ⟨h.of_blockDirs hdirs, fun rest => ?_, fun htrue => by simp [hfalse] at htrue⟩
    have hplain := (validPath_append.2 ⟨store.dataDir_valid, fun name hname =>
      (store.sha.hexId value).validPath_shard name (List.mem_of_mem_dropLast hname)⟩).plain
    rw [blockHome_eq] at hdirs
    rcases hdirs.get hplain (store.linkDir ++ rest) with heq | ⟨-, -, hpre⟩
    · exact heq
    · exact absurd hpre (store.not_link_prefix_data _ _)

/-- Linking a block with calls that may fail adds directories along the path of the key and at most
one link behind it. -/
theorem grows_putLinkFaulty (store : FFStore) (key value : Bytes)
    (hlinks : state.world.tree.LinksToFiles) :
    FileTree.Grows (fun path node =>
      (node = .dir ∧ ∃ stage, stage <+: store.place key ∧ path = normal [] stage) ∨
        (node = .link (store.block value) ∧
          path = normal [] (store.place key) ++ [store.linkName value]))
      state.world.tree
      ((store.putLinkFaulty (validateKey store.sha key)
        (store.linkName value)).run state).state.world.tree := by
  have hdirs : ∀ {after : FileTree}, FileTree.DirsAlong (store.home key) state.world.tree after →
      FileTree.Grows (fun path node =>
        (node = .dir ∧ ∃ stage, stage <+: store.place key ∧ path = normal [] stage) ∨
          (node = .link (store.block value) ∧
            path = normal [] (store.place key) ++ [store.linkName value])) state.world.tree after := by
    intro after hafter
    refine hafter.imp ?_
    rintro path node ⟨rfl, stage, hstage, rfl⟩
    exact Or.inl ⟨rfl, stage, hstage.trans (store.home_prefix key), rfl⟩
  rcases store.run_putLinkFaulty_cases key value hlinks with
    ⟨faults, hsame⟩ | ⟨-, hafter⟩ | ⟨made, faults, hmade, herror⟩
  · rw [hsame, state_withFaults]
    refine (linkedAlong_putLink store key value hlinks).grows.imp ?_
    rintro path node (hdir | ⟨rfl, -, rfl⟩)
    · exact Or.inl hdir
    · exact Or.inr ⟨rfl, rfl⟩
  · exact hdirs hafter
  · rw [herror]
    have hafter := dirsAlong_ensureDirectory (ε := Exception) (store.home key) hlinks
    rw [hmade] at hafter
    exact hdirs hafter

/-- A link that was created is the entry of the directory of its key. -/
theorem bare_of_linked {world after : World} {dir : FilePath}
    (hlinks : world.tree.LinksAvoidDirs)
    (hrun : (createNode (store.linkAt key value) (.link (store.block value)) : Storage Unit).run
      world = .ok () after) (hbare : after.tree.Bare dir) :
    world.tree.Bare dir ∧ dir ≠ normal [] (store.home key) := by
  have hhex := store.sha.hexId value
  rcases createNode_cases (ε := Exception) hlinks (store.linkAt key value)
    (.link (store.block value)) with herror | ⟨front, name, tree, -, -, hnormal, hcreate, hcreated⟩
  · simp [hrun] at herror
  rw [hrun, Result.ok.injEq] at hcreated
  have hget : ∀ path, after.tree.get path =
      if path = normal [] (store.linkAt key value) then some (.link (store.block value))
      else world.tree.get path := by
    intro path
    rw [hcreated.2, hnormal, FileTree.get_create hcreate]
  have hlink := hget (normal [] (store.linkAt key value))
  rw [if_pos rfl] at hlink
  refine ⟨?_, fun hdir => ?_⟩
  · have hdir := hbare.1
    rw [hget] at hdir
    split at hdir
    · simp at hdir
    · refine hbare.of_more hdir fun path hpath => ?_
      rw [hget]
      split
      · simp
      · exact hpath
  · rw [linkAt, entry_path store key (hhex.not_mem (by decide)) (hhex.not_mem (by decide))] at hlink
    split at hlink
    · rw [normal_place, ← hdir, hbare.1] at hlink
      simp at hlink
    · rw [normal_append, normal_cons, normal_nil, enter_of_proper hhex.validName.1, normal_place,
        ← hdir, hbare.2] at hlink
      simp at hlink

/-- When linking a block leaves a directory without entries, the call that was to create the first
entry in it failed, or there was none. -/
theorem bare_putLinkFaulty {dir : FilePath} (hlinks : state.world.tree.LinksToFiles)
    (hup : dotDot ∉ store.place key)
    (hbare : ((store.putLinkFaulty (validateKey store.sha key)
      (store.linkName value)).run state).state.world.tree.Bare dir)
    (hold : ¬ state.world.tree.Bare dir) :
    StopsBehind Exception (store.home key) state dir ∨
      dir = normal [] (store.home key) ∧ ∃ flag made,
        (ensureDirectoryFaulty (store.home key) : FaultyStorage Bool).run state = .ok flag made ∧
        (flag = true → (made.world.tree.resolve (store.linkAt key value)).isSome ∨
          ∃ last, (createSymlinkFaulty (store.block value) (store.linkAt key value) :
            FaultyStorage Unit).run made = .error .filesystemError last) := by
  have hhex := store.sha.hexId value
  have hupHome : dotDot ∉ store.home key := fun hmem => hup ((store.home_prefix key).subset hmem)
  have hmadeBare := fun hbare =>
    @bare_ensureDirectoryFaulty Exception _ state _ dir hlinks hupHome hbare hold
  simp only [putLinkFaulty, run_bind, run_reliable, run_pathText_validateKey, withFaults_ok] at hbare
  rw [show store.linkDir ++ components (removeFilename
      (shardText (validateKey store.sha key) ++ [slash, 120])) = store.home key from rfl,
    show store.linkDir ++ components (shardText (validateKey store.sha key) ++
      slash :: store.linkName value) = store.linkAt key value from rfl] at hbare
  cases hmade : (ensureDirectoryFaulty (store.home key) : FaultyStorage Bool).run state with
  | error fault made =>
      rw [hmade] at hbare hmadeBare
      rcases hmadeBare hbare with ⟨-, flag, after, hok⟩ | hstops
      · simp at hok
      · exact Or.inl hstops
  | ok flag made =>
      rw [hmade] at hbare hmadeBare
      cases flag with
      | false =>
          rcases hmadeBare hbare with ⟨hdir, -⟩ | hstops
          · exact Or.inr ⟨hdir, false, made, rfl, by simp⟩
          · exact Or.inl hstops
      | true =>
          simp only [if_true, run_bind, run_reliable, run_present, withFaults_ok] at hbare
          by_cases hthere : (made.world.tree.resolve (store.linkAt key value)).isSome = true
          · rw [if_pos hthere] at hbare
            rcases hmadeBare hbare with ⟨hdir, -⟩ | hstops
            · exact Or.inr ⟨hdir, true, made, rfl, fun _ => Or.inl hthere⟩
            · exact Or.inl hstops
          rw [if_neg hthere] at hbare
          simp only [run_bind, run_reliable, run_pathText hhex, withFaults_ok,
            hhex.components_shardText] at hbare
          rw [show store.dataDir ++ shard (store.linkName value) = store.block value from rfl]
            at hbare
          rcases run_createNodeFaulty_cases (ε := Exception) (store.linkAt key value)
            (.link (store.block value)) made with ⟨after, hnode, hsame⟩ | ⟨after, hnode, hrun⟩
          · rw [createSymlinkFaulty, hnode, Result.state_error, hsame] at hbare
            rcases hmadeBare hbare with ⟨hdir, -⟩ | hstops
            · exact Or.inr ⟨hdir, true, made, rfl, fun _ => Or.inr ⟨after, hnode⟩⟩
            · exact Or.inl hstops
          · rw [createSymlinkFaulty, hnode] at hbare
            have hdirs := dirsAlong_ensureDirectoryFaulty (ε := Exception) (store.home key) hlinks
            rw [hmade] at hdirs
            obtain ⟨hold', hne⟩ := bare_of_linked (hdirs.linksToFiles hlinks).avoidDirs hrun hbare
            rcases hmadeBare hold' with ⟨hdir, -⟩ | hstops
            · exact absurd hdir hne
            · exact Or.inl hstops

/-- A put that makes the directory of its key also creates the link in it. -/
def linksLast (store : FFStore) (key value : Bytes) (state : FaultyWorld) : Bool :=
  match (store.storeBlockFaulty value).run state with
  | .ok true stored =>
      match (ensureDirectoryFaulty (store.home key) : FaultyStorage Bool).run stored with
      | .ok flag made =>
          match (createSymlinkFaulty (store.block value) (store.linkAt key value) :
              FaultyStorage Unit).run made with
          | .ok _ _ => flag && (made.world.tree.resolve (store.linkAt key value)).isNone
          | .error _ _ => false
      | .error _ _ => true
  | _ => true

/-- A put under a short key leaves no directory of a short key empty when it creates the link. -/
theorem not_strands_of_short (hshort : key.length < 128)
    (hlast : store.linksLast key value state = true) {dir : FilePath} (hdir : dir ∈ store.shortDirs) :
    ¬ Strands store key value state dir := by
  rintro ⟨stored, hstored, -, ⟨front, name, flag, made, last, hfront, rfl, -⟩ |
    ⟨-, flag, made, hmade, hfails⟩⟩
  · -- the directory of a short key is the last one on the path
    obtain ⟨other, -, hother⟩ := hdir
    have hhex := hexId_validateKey store.sha hshort
    have hvalid := validPath_keyDir hhex
    rw [home_eq_keyDir hhex] at hfront
    have hplain : Plain front := fun name hname => (hvalid name (List.mem_of_mem_filter
      (hfront.subset (List.mem_append_left _ hname)))).1
    have hlength := hfront.length_le.trans (List.length_filter_le _ _)
    have hsame := congrArg List.length hother
    rw [normal_of_plain hplain] at hsame
    simp only [keyDir, shard, List.length_append, List.nil_append, List.length_cons,
      List.length_nil] at hlength hsame
    omega
  · simp only [linksLast, hstored, hmade] at hlast
    cases hcreate : (createSymlinkFaulty (store.block value) (store.linkAt key value) :
        FaultyStorage Unit).run made with
    | error fault last => simp [hcreate] at hlast
    | ok _ last =>
        rw [hcreate] at hfails
        simp only [hcreate, Bool.and_eq_true, Option.isNone_iff_eq_none] at hlast
        rcases hfails hlast.1 with hthere | ⟨other, herror⟩
        · simp [hlast.2] at hthere
        · simp at herror

/-- Linking a block that does not return true has created no link. -/
theorem dirsAlong_putLinkFaulty (hlinks : state.world.tree.LinksToFiles)
    (hfalse : ((store.putLinkFaulty (validateKey store.sha key)
      (store.linkName value)).run state).isTrue = false) :
    FileTree.DirsAlong (store.home key) state.world.tree
      ((store.putLinkFaulty (validateKey store.sha key)
        (store.linkName value)).run state).state.world.tree := by
  have hhex := store.sha.hexId value
  have hdirs := dirsAlong_ensureDirectoryFaulty (ε := Exception) (store.home key) hlinks
  simp only [putLinkFaulty, run_bind, run_reliable, run_pathText_validateKey, withFaults_ok]
    at hfalse ⊢
  rw [show store.linkDir ++ components (removeFilename
    (shardText (validateKey store.sha key) ++ [slash, 120])) = store.home key from rfl] at hfalse ⊢
  cases hmade : (ensureDirectoryFaulty (store.home key) : FaultyStorage Bool).run state with
  | error fault made =>
      rw [hmade] at hdirs
      exact hdirs
  | ok flag made =>
      rw [hmade] at hdirs hfalse
      cases flag with
      | false => exact hdirs
      | true =>
          simp only [if_true, run_bind, run_reliable, run_present, withFaults_ok] at hfalse ⊢
          split
          · exact hdirs
          · next hnot =>
              rw [if_neg hnot] at hfalse
              simp only [run_bind, run_reliable, run_pathText hhex, withFaults_ok,
                createSymlinkFaulty] at hfalse ⊢
              rcases run_createNodeFaulty_cases (ε := Exception) (store.linkDir ++ components
                (shardText (validateKey store.sha key) ++ slash :: store.linkName value))
                (.link (store.dataDir ++ components (shardText (store.linkName value)))) made with
                ⟨after, hnode, hsame⟩ | ⟨after, hnode, -⟩
              · rw [hnode]
                rw [Result.state_ok, ← hsame] at hdirs
                exact hdirs
              · rw [hnode] at hfalse
                cases hfalse

/-- A directory of a short key lies in the link directory. -/
theorem linkDir_prefix_of_mem_shortDirs {dir : FilePath} (h : dir ∈ store.shortDirs) :
    store.linkDir <+: dir := by
  obtain ⟨key, -, rfl⟩ := h
  exact List.prefix_append _ _

/-- A put that leaves no directory of a short key empty. -/
theorem Stocked.put (h : Stocked store state.world.tree) (hup : dotDot ∉ store.place key)
    (hspares : ∀ dir ∈ store.shortDirs, ¬ Strands store key value state dir) :
    Stocked store ((store.kvPutFaulty key value).run state).state.world.tree := by
  obtain ⟨hwhole, hlink, hblock⟩ := h.toWhole.storeBlockFaulty value
  rw [kvPutFaulty, run_bind]
  cases hstore : (store.storeBlockFaulty value).run state with
  | error fault stored =>
      rw [hstore] at hwhole hlink
      exact ⟨hwhole, fun dir hdir hbare => h.stocked dir hdir
        (hbare.congr (linkDir_prefix_of_mem_shortDirs hdir) hlink)⟩
  | ok flag stored =>
      rw [hstore] at hwhole hlink hblock
      cases flag with
      | false =>
          exact ⟨hwhole, fun dir hdir hbare => h.stocked dir hdir
            (hbare.congr (linkDir_prefix_of_mem_shortDirs hdir) hlink)⟩
      | true =>
          have hwhole : Whole store stored.world.tree := hwhole
          have hgrows := store.grows_putLinkFaulty key value hwhole.linksToFiles
          simp only [if_true]
          refine ⟨hwhole.of_linked hup (hblock rfl) hgrows, fun dir hdir hbare => ?_⟩
          have hold : ¬ stored.world.tree.Bare dir := fun hstored => h.stocked dir hdir
            (hstored.congr (linkDir_prefix_of_mem_shortDirs hdir) hlink)
          refine hspares dir hdir ⟨stored, hstore, ?_, bare_putLinkFaulty hwhole.linksToFiles hup
            hbare hold⟩
          by_contra hthere
          obtain ⟨node, hnode⟩ := Option.ne_none_iff_exists'.1 hthere
          have hsame := hgrows.get_of_some hnode
          rw [hbare.1, Option.some.injEq] at hsame
          refine hold (hbare.of_more (hsame ▸ hnode) fun path hpath => ?_)
          obtain ⟨other, hother⟩ := Option.ne_none_iff_exists'.1 hpath
          simp [hgrows.get_of_some hother]

end Puts

section Removals

variable {world : World} {key : Bytes}

/-- Removing a key removes what its path names, or empties what it leads to, or changes nothing. -/
theorem tree_kvRemove_cases (platform : Platform) (hlinks : world.tree.LinksAvoidDirs)
    (hroot : store.spot key ≠ []) :
    ((store.kvRemove platform key).run world).state.tree = world.tree ∨
      ((0 : UInt8) ∈ validateKey store.sha key → world.tree.names (store.spot key) = []) ∧
        (EndsInName (store.place key) ∧ ((store.kvRemove platform key).run world).state.tree =
            world.tree.prune (store.spot key) ∨
          ¬ EndsInName (store.place key) ∧ ((store.kvRemove platform key).run world).state.tree =
            world.tree.clear (store.spot key)) := by
  rw [kvRemove, run_bind, run_pathText_validateKey]
  simp only [run_bind]
  rw [show store.linkDir ++ components (shardText (validateKey store.sha key)) =
    store.place key from rfl, removeAllText, run_bind, run_get]
  simp only
  rw [show store.linkDir ++ components (shardText (validateKey store.sha key)) =
    store.place key from rfl, run_ite]
  simp only [zero_mem_shardText]
  cases hlocate : world.tree.locate (store.place key) with
  | none =>
      left
      have hnone := FileTree.resolve_of_locate_none hlinks hlocate
      simp [removeAll, hlocate, listDirectory, hnone]
  | some found =>
      obtain ⟨rfl, hnode⟩ := FileTree.locate_eq_normal hlinks hlocate
      rw [Option.any_some]
      by_cases hzero : (0 : UInt8) ∈ validateKey store.sha key ∧
          decide (world.tree.names (normal [] (store.place key)) ≠ []) = true
      · rw [if_pos hzero]
        exact Or.inl rfl
      · rw [if_neg hzero]
        refine Or.inr ⟨fun hmem => ?_, ?_⟩
        · by_contra hnames
          exact hzero ⟨hmem, by simpa using hnames⟩
        · by_cases hends : EndsInName (store.place key)
          · obtain ⟨node, hnode⟩ := Option.ne_none_iff_exists'.1 hnode
            obtain ⟨count, hrun⟩ := run_removeAll_found (ε := Exception) hlocate hnode hends hroot
            rw [hrun]
            exact Or.inl ⟨hends, rfl⟩
          · refine Or.inr ⟨hends, ?_⟩
            simp [removeAll, hlocate, hends, setTree]

/-- A removal that leaves no directory of a short key empty. -/
theorem Stocked.remove (h : Stocked store world.tree) (platform : Platform)
    (hup : dotDot ∉ store.place key)
    (hspares : ∀ dir ∈ store.shortDirs, ¬ Strips store key world.tree dir) :
    Stocked store ((store.kvRemove platform key).run world).state.tree := by
  have hspot := linkDir_prefix_spot hup
  have hroot : store.spot key ≠ [] := by
    intro hnil
    rw [hnil, List.prefix_nil] at hspot
    exact store.link_not_data (hspot ▸ List.nil_prefix)
  rcases tree_kvRemove_cases platform h.linksToFiles.avoidDirs hroot with
    hsame | ⟨hzero, ⟨hends, hafter⟩ | ⟨hends, hafter⟩⟩
  · rw [hsame]
    exact h
  · rw [hafter]
    refine ⟨h.of_shrinks hspot (FileTree.shrinks_prune (List.prefix_refl _) _),
      fun dir hdir hbare => hspares dir hdir ⟨hzero, Or.inl ⟨hends, ?_⟩⟩⟩
    exact hbare.of_prune (h.stocked dir hdir) hroot
  · rw [hafter]
    refine ⟨h.of_shrinks hspot (FileTree.shrinks_clear (List.prefix_refl _) _),
      fun dir hdir hbare => hspares dir hdir ⟨hzero, Or.inr ⟨hends, ?_⟩⟩⟩
    exact (hbare.of_unnamed (h.stocked dir hdir) (FileTree.unnamed_clear _ _)).1.symm

end Removals

/-! ## Getting a key after a run -/

/-- The slots of the store. -/
def slots (store : FFStore) : KvSlots := ⟨store.kvPutFaulty, store.kvGet, store.kvRemove⟩

/-- The directory of the key holds neither a link nor a file. -/
def NoValue (store : FFStore) (key : Bytes) (tree : FileTree) : Prop :=
  ∀ name, tree.get (store.keyDir key ++ [name]) = none ∨
    tree.get (store.keyDir key ++ [name]) = some .dir

/-- A fresh store has no directories of keys. -/
theorem Initial.stocked {tree : FileTree} (h : Initial store tree) : Stocked store tree := by
  refine ⟨⟨h.sound.blocks, h.sound.links, fun rest content hfile => ?_⟩, ?_⟩
  · by_cases hrest : rest = []
    · rw [hrest, List.append_nil, h.linkDir] at hfile
      simp at hfile
    · simp [h.noEntries rest hrest] at hfile
  · rintro dir ⟨key, -, rfl⟩ hbare
    have hdir := hbare.1
    rw [keyDir, h.noEntries _ (by simp [shard])] at hdir
    simp at hdir

section Calls

variable {world : World} {key : Bytes}

/-- Where the directory of the key is not empty, it does not matter what the platform yields when
the control flows off the end of `kv_get`. -/
theorem run_kvGet_flowOff (platform : Platform) (flowOff : Option Bool)
    (h : ∀ dir, world.tree.resolve (store.place key) = some dir → ¬ world.tree.Bare dir) :
    (store.kvGet { platform with flowOff := flowOff } key).run world =
      (store.kvGet platform key).run world := by
  rw [kvGet, kvGet, run_tryCatch_eq, run_tryCatch_eq]
  simp only [run_bind, run_pathText_validateKey, run_isDirectory]
  rw [show store.linkDir ++ components (shardText (validateKey store.sha key)) =
    store.place key from rfl]
  by_cases hdir : (world.tree.resolve (store.place key)).bind world.tree.get = some .dir
  · obtain ⟨dir, hresolve, hnode⟩ := Option.bind_eq_some_iff.1 hdir
    simp only [hresolve, Option.bind_some, hnode, decide_true, if_true, run_bind, listDirectory,
      run_record, run_get]
    cases horder : platform.listing.order (world.tree.names dir) with
    | nil =>
        have hnil := platform.listing.perm (world.tree.names dir)
        rw [horder, List.nil_perm] at hnil
        exact absurd ⟨hnode, FileTree.names_eq_nil_iff.1 hnil⟩ (h dir hresolve)
    | cons name rest => rfl
  · simp [hdir]

/-- The path of a short key leads to its directory, or to a file. -/
theorem Stocked.not_bare (h : Stocked store world.tree) (hshort : key.length < 128) {dir : FilePath}
    (hresolve : world.tree.resolve (store.place key) = some dir) : ¬ world.tree.Bare dir := by
  intro hbare
  have hhex := hexId_validateKey store.sha hshort
  rw [place_eq_keyDir hhex] at hresolve
  have hpass : world.tree.Passable (store.keyDir key) := by
    rw [← FileTree.resolve_dir_iff h.linksToFiles.avoidDirs, hresolve, Option.bind_some, hbare.1]
  rw [FileTree.resolve_of_passable hpass, normal_of_plain (validPath_keyDir hhex).plain,
    List.nil_append, Option.some.injEq] at hresolve
  exact h.stocked _ ⟨key, hshort, rfl⟩ (hresolve ▸ hbare)

/-- Getting a short key reaches a return statement. -/
theorem Stocked.getReturns (h : Stocked store world.tree) (platform : Platform)
    (hshort : key.length < 128) :
    ∃ result, KvSlots.GetReturns store.slots platform key world result := by
  have hsame : ∀ flowOff, (store.kvGet { platform with flowOff := flowOff } key).run world =
      (store.kvGet { platform with flowOff := some false } key).run world := fun flowOff =>
    run_kvGet_flowOff { platform with flowOff := some false } flowOff
      fun _ hresolve => h.not_bare hshort hresolve
  obtain ⟨last, -, hrun | hrun | ⟨name, text, -, hrun⟩⟩ :=
    store.run_kvGet_cases { platform with flowOff := some false } key world
  · exact ⟨_, last, fun flowOff => (hsame flowOff).trans hrun⟩
  · exact ⟨_, last, fun flowOff => (hsame flowOff).trans hrun⟩
  · exact ⟨_, last, fun flowOff => (hsame flowOff).trans hrun⟩

/-- Getting a short key that holds no value returns false. -/
theorem Stocked.getReturns_false (h : Stocked store world.tree) (platform : Platform)
    (hshort : key.length < 128) (hnone : NoValue store key world.tree) :
    KvSlots.GetReturns store.slots platform key world (false, []) := by
  have hhex := hexId_validateKey store.sha hshort
  have hsame : ∀ flowOff, (store.kvGet { platform with flowOff := flowOff } key).run world =
      (store.kvGet { platform with flowOff := some false } key).run world := fun flowOff =>
    run_kvGet_flowOff { platform with flowOff := some false } flowOff
      fun _ hresolve => h.not_bare hshort hresolve
  obtain ⟨last, -, hrun | hrun | ⟨name, text, ⟨dir, content, hresolve, hname, hleads, -⟩, -⟩⟩ :=
    store.run_kvGet_cases { platform with flowOff := some false } key world
  · exact ⟨last, fun flowOff => (hsame flowOff).trans hrun⟩
  · exact ⟨last, fun flowOff => (hsame flowOff).trans hrun⟩
  · -- an entry that leads to a file would be a value
    obtain ⟨file, hfile, hcontent⟩ := hleads
    have hnode := FileTree.mem_names.1 hname
    have hvalid : ValidName name := FileTree.get_valid hnode
    have hzero : (0 : UInt8) ∉ validateKey store.sha key := hhex.not_mem (by decide)
    have hpass : world.tree.Passable (store.place key) := by
      rw [← FileTree.resolve_dir_iff h.linksToFiles.avoidDirs, hresolve, Option.bind_some,
        FileTree.get_parent hnode]
    rw [FileTree.resolve_of_passable hpass, place_eq_keyDir hhex,
      normal_of_plain (validPath_keyDir hhex).plain, List.nil_append, Option.some.injEq] at hresolve
    subst hresolve
    have hdir := (hnone name).resolve_left hnode
    rw [entry_path store key hvalid.2.1 hvalid.2.2.1, if_neg hzero, place_eq_keyDir hhex,
      FileTree.resolve_of_get (fun other hother => ?_) hdir (by simp), Option.some.injEq] at hfile
    · rw [← hfile, hdir] at hcontent
      simp at hcontent
    · rcases List.mem_append.1 hother with hother | hother
      · exact (validPath_keyDir hhex).plain other hother
      · exact (List.mem_singleton.1 hother) ▸ hvalid.1

/-- A put under a short key that does not return true adds nothing to the directory of the key. -/
theorem Stocked.get_kvPutFaulty {state : FaultyWorld} (h : Stocked store state.world.tree)
    (value : Bytes) (hshort : key.length < 128)
    (hfalse : ((store.kvPutFaulty key value).run state).isTrue = false) (name : Name) :
    ((store.kvPutFaulty key value).run state).state.world.tree.get (store.keyDir key ++ [name]) =
      state.world.tree.get (store.keyDir key ++ [name]) := by
  have hhex := hexId_validateKey store.sha hshort
  obtain ⟨hwhole, hlink, -⟩ := h.toWhole.storeBlockFaulty value
  have hentry := hlink (shard (validateKey store.sha key) ++ [name])
  rw [← List.append_assoc, ← keyDir] at hentry
  rw [kvPutFaulty, run_bind] at hfalse ⊢
  cases hstore : (store.storeBlockFaulty value).run state with
  | error fault stored =>
      rw [hstore] at hentry
      exact hentry
  | ok flag stored =>
      rw [hstore] at hwhole hentry hfalse
      cases flag with
      | false => exact hentry
      | true =>
          have hwhole : Whole store stored.world.tree := hwhole
          have hdirs := dirsAlong_putLinkFaulty hwhole.linksToFiles hfalse
          rw [home_eq_keyDir hhex] at hdirs
          rcases hdirs.get (validPath_keyDir hhex).plain (store.keyDir key ++ [name]) with
            heq | ⟨-, -, hpre⟩
          · exact heq.trans hentry
          · exact absurd (eq_nil_of_append_le hpre) (by simp)

end Calls

/-- In every run in which no call leaves the directory of a short key empty, getting a short key is
defined. -/
theorem defined_of_reaches {platform : Platform} {start world : World}
    (hinitial : Initial store start.tree)
    (h : KvSlots.Reaches store.slots platform (Spares store) start world) :
    KvSlots.Defined store.slots platform (NoValue store) (Spares store) world := by
  have hstep : ∀ world call, Stocked store world.tree → Spares store world call →
      Stocked store (store.slots.step platform world call).tree := by
    intro world call hstocked hspares
    cases call with
    | put key value faults => exact @Stocked.put _ ⟨world, faults⟩ _ _ hstocked hspares.1 hspares.2
    | remove key => exact hstocked.remove platform hspares.1 hspares.2
  have hstocked := h.induct hinitial.stocked hstep
  refine ⟨fun key hshort => hstocked.getReturns platform hshort,
    fun key value faults hshort hspares hnone hfalse => ?_⟩
  refine ⟨hstocked.getReturns_false platform hshort hnone,
    (hstep _ _ hstocked hspares).getReturns_false platform hshort fun name => ?_⟩
  have hsame : (store.slots.step platform world (.put key value faults)).tree.get
      (store.keyDir key ++ [name]) = world.tree.get (store.keyDir key ++ [name]) :=
    @Stocked.get_kvPutFaulty _ key ⟨world, faults⟩ hstocked value hshort hfalse name
  rw [hsame]
  exact hnone name

end AnarchNet.FFStore
