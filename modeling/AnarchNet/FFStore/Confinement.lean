import AnarchNet.FFStore.AnyKey

/-!
# Which keys stay in the store

Keys of 128 bytes and more are used as paths. `key_confined_iff` says for which keys every path
that the three calls open, create or remove lies strictly inside one of the two directories of the
store, in every state of the store: the path of the key must lie there, and so must every stage
that `kv_put` could have to create.
-/

namespace AnarchNet.FFStore

open FileSystem EStateM

/-- After resolving dots, the path is strictly inside one of the store's directories. -/
def Inside (store : FFStore) (path : FilePath) : Prop :=
  StrictlyInside store.linkDir path ∨ StrictlyInside store.dataDir path

/-- `Inside` compares lists. -/
instance (store : FFStore) (path : FilePath) : Decidable (Inside store path) :=
  inferInstanceAs (Decidable (_ ∨ _))

/-- The calls on a key. -/
inductive KeyCall where
  | put (value : Bytes)
  | get
  | remove

/-- A call, whatever it returns. -/
def KeyCall.run (store : FFStore) (platform : Platform) (key : Bytes) : KeyCall → Storage Unit
  | .put value => do let _ ← store.kvPut key value
  | .get => do let _ ← store.kvGet platform key
  | .remove => do let _ ← store.kvRemove platform key

/-- The path of the key is inside, and so is every stage of it that can be missing: a name behind
names that can be stored, where no block lies on the way, and not above the store's directories. -/
structure Confined (store : FFStore) (key : Bytes) : Prop where
  place : Inside store (store.place key)
  stages : ∀ value front name, front ++ [name] <+: store.place key → Proper name →
    (∀ other ∈ front, Proper other → ValidName other) →
    (∀ stage, stage <+: front → normal [] stage ≠ store.block value) →
    Inside store (front ++ [name]) ∨ normal [] (front ++ [name]) <+: store.linkDir ∨
      normal [] (front ++ [name]) <+: store.dataDir

section Calls

variable {store : FFStore} {key : Bytes} {world : World}

/-- Only where a path leads matters. -/
theorem inside_congr {path other : FilePath} (h : normal [] path = normal [] other) :
    Inside store path ↔ Inside store other := by
  simp only [Inside, StrictlyInside, h]

/-- An entry of something inside is inside. -/
theorem Inside.snoc {path : FilePath} (h : Inside store path) {name : Name} (hname : Proper name) :
    Inside store (path ++ [name]) :=
  h.imp (·.snoc hname) (·.snoc hname)

/-- The paths of a key that is inside are inside. -/
theorem inside_ofKey (h : Inside store (store.place key)) {path : FilePath}
    (hpath : OfKey store key path) : Inside store path := by
  rcases hpath with rfl | ⟨name, hname, rfl⟩
  · exact h
  · exact h.snoc hname.1

/-- Getting a key opens its path and one entry. -/
theorem logged_kvGet (platform : Platform) (h : Inside store (store.place key)) :
    Preserves (Logged (Inside store)) (store.kvGet platform key) := by
  refine Preserves.tryCatch ?_ fun fault => ?_
  · refine Preserves.bind_of_returns (preserves_pathText _) (returns_pathText store key) ?_
    rintro text rfl
    refine Preserves.bind logged_isDirectory fun dir =>
      Preserves.ite (fun _ => ?_) fun _ => Preserves.pure _
    refine Preserves.bind_of_returns (logged_listDirectory _ h) (returns_listDirectory _)
      fun names hnames => ?_
    cases names with
    | nil => exact preserves_flowed platform
    | cons name rest =>
        refine Preserves.bind (logged_openIn
          (inside_ofKey h (ofKey_entry store key (hnames name (by simp)))))
          fun file => ?_
        cases file with
        | none => exact Preserves.pure _
        | some file =>
            exact Preserves.bind logged_fileSize fun size =>
              Preserves.bind logged_readAll fun bytes => Preserves.pure _
  · split
    · exact Preserves.pure _
    · exact Preserves.throw _

/-- Removing a key notes its path and its entries. -/
theorem logged_kvRemove (platform : Platform) (h : Inside store (store.place key)) :
    Preserves (Logged (Inside store)) (store.kvRemove platform key) :=
  preserves_kvRemove platform (fun _ => .of_log_snoc h rfl) (logged_removeAll h)
    (logged_listDirectory _ h) fun _ hpath => logged_remove (inside_ofKey h hpath)

/-- Removing a key notes its path in any case. -/
theorem place_mem_log_kvRemove (store : FFStore) (platform : Platform) (key : Bytes)
    (world : World) :
    store.place key ∈ ((store.kvRemove platform key).run world).state.log := by
  have htext : store.place key ∈ ((removeAllText store.linkDir
      (shardText (validateKey store.sha key))).run world).state.log := by
    simp only [removeAllText, run_bind, run_get, run_ite]
    split
    · simp [place]
    · exact mem_log_removeAll world
  rw [kvRemove, run_bind, run_pathText_validateKey]
  exact mem_log_bind (P := fun _ => True) htext fun count =>
    preserves_removeListed platform (logged_listDirectory _ trivial)
      (fun _ _ => logged_remove trivial) count

/-- Making sure that a directory below an existing one is there notes paths below it only. -/
theorem log_ensureDirectory_below {dir rest : FilePath} (hlinks : world.tree.LinksToFiles)
    (hplain : Plain (dir ++ rest)) (hdir : world.tree.get dir = some .dir) {path : FilePath}
    (hpath : path ∈ ((ensureDirectory (dir ++ rest) : Storage Bool).run world).state.log) :
    path ∈ world.log ∨ StrictlyInside dir path := by
  have hdirPlain : Plain dir := fun name hname => hplain name (List.mem_append_left _ hname)
  rcases wentAlong_ensureDirectory (ε := Exception) (dir ++ rest) hlinks with
    ⟨-, hrun⟩ | ⟨-, hwent⟩
  · rw [hrun] at hpath
    exact Or.inl hpath
  rcases hwent.log path hpath with hold | ⟨stage, name, hstage, -, rfl, -, hnode⟩
  · exact Or.inl hold
  have halong : stage ++ [name] <+: dir ++ rest := by
    rwa [List.filter_eq_self.2 fun other hother => by
      simpa using fun hnil => (hplain other hother).1 (Or.inl hnil)] at hstage
  have hstagePlain : Plain (stage ++ [name]) := fun other hother =>
    hplain other (halong.subset hother)
  rw [List.nil_append] at hnode ⊢
  rw [normal_of_plain hstagePlain, List.nil_append] at hnode
  rcases prefix_append_cases halong with ⟨tail, htail⟩ | ⟨below, hbelow, -⟩
  · exact absurd (FileTree.get_dir_of_append (htail ▸ hdir)) hnode
  · rw [hbelow] at hstagePlain hnode ⊢
    refine Or.inr (strictly_inside_of_plain hdirPlain (fun other hother =>
      hstagePlain other (List.mem_append_right _ hother)) ?_)
    rintro rfl
    exact hnode (by rw [List.append_nil, hdir])

/-- Storing a block notes paths in the data directory only. -/
theorem log_storeBlock (hsound : Sound store world.tree) (content : Bytes) {path : FilePath}
    (hpath : path ∈ ((store.storeBlock content).run world).state.log) :
    path ∈ world.log ∨ StrictlyInside store.dataDir path := by
  have hhex := store.sha.hexId content
  have hvalid := hhex.validPath store.dataDir_valid
  have hplain : Plain (store.dataDir ++ (shard (store.linkName content)).dropLast) := fun name hname =>
    hvalid.plain name (by
      rw [shard_eq_snoc, ← List.append_assoc]
      exact List.mem_append_left _ hname)
  have hblock : StrictlyInside store.dataDir (store.dataDir ++ shard (store.linkName content)) :=
    strictly_inside_of_plain store.dataDir_valid.plain hhex.validPath_shard.plain (by simp [shard])
  -- the file is opened and then written, which notes nothing more
  have hopens : ∃ write : Option FilePath → Storage Bool,
      (∀ opened, Preserves (Logged (StrictlyInside store.dataDir)) (write opened)) ∧
        store.storeBlock content = (pathText (store.linkName content) >>= fun text =>
          openBlock store.dataDir text >>= write) := by
    refine ⟨_, fun opened => ?_, rfl⟩
    cases opened with
    | none => exact Preserves.pure _
    | some file => exact Preserves.bind (logged_writeAt 0 content) fun _ => Preserves.pure _
  obtain ⟨write, hwrite, hstore⟩ := hopens
  rw [hstore, run_bind, run_pathText hhex] at hpath
  rcases mem_log_of_bind hpath hwrite with hopened | hinside
  · rw [openBlock, hhex.components_removeFilename, hhex.components_shardText] at hopened
    rcases mem_log_of_bind hopened fun there => Preserves.ite (fun _ => logged_openOut hblock)
      fun _ => Preserves.pure _ with hmade | hinside
    · exact log_ensureDirectory_below hsound.linksToFiles hplain hsound.blocks.base hmade
    · exact Or.inr hinside
  · exact Or.inr hinside

/-- Putting a value under a key that is confined notes paths inside only. -/
theorem Confined.log_kvPut (h : Confined store key) (hsound : Sound store world.tree)
    (value : Bytes) {path : FilePath}
    (hpath : path ∈ ((store.kvPut key value).run world).state.log) :
    path ∈ world.log ∨ Inside store path := by
  obtain ⟨middle, hblock, hstored, hsound', hrun⟩ := run_kvPut_eq key value hsound
  have hlinked := linkedAlong_putLink store key value hsound'.linksToFiles
  rw [hrun] at hpath
  rcases hlinked.log path hpath with
    hold | ⟨front, name, hstage, hname, hnormal, hpass, hnode⟩ | rfl
  · have hstore := @log_storeBlock _ _ hsound value path
    rw [hblock] at hstore
    exact (hstore hold).imp_right Or.inr
  · -- the stages before a missing one are directories, so none of them is the block
    have hfile := hlinked.grows.get_of_some hstored.get_file
    rcases h.stages value front name hstage hname hpass.enterable.names
      (fun stage hpre heq => by
        have hdir := hpass stage hpre
        rw [heq, show _ = some _ from hfile] at hdir
        simp at hdir) with hinside | hpre | hpre
    · exact Or.inr ((inside_congr hnormal).2 hinside)
    · obtain ⟨tail, htail⟩ := hnormal ▸ hpre
      exact absurd (FileTree.get_dir_of_append (htail ▸ hsound'.linkDir)) hnode
    · obtain ⟨tail, htail⟩ := hnormal ▸ hpre
      exact absurd (FileTree.get_dir_of_append (htail ▸ hsound'.blocks.base)) hnode
  · exact Or.inr (h.place.snoc (store.sha.hexId value).validName.1)

/-- A name at the end of a beginning is no empty component. -/
theorem snoc_prefix_of_append_nils {front path : FilePath} {name : Name} (count : Nat)
    (hname : name ≠ []) (h : front ++ [name] <+: path ++ List.replicate count []) :
    front ++ [name] <+: path := by
  rcases prefix_append_cases h with hpre | ⟨rest, heq, hrest⟩
  · exact hpre
  · rcases List.eq_nil_or_concat rest with rfl | ⟨nils, last, rfl⟩
    · rw [heq, List.append_nil]
    · rw [List.concat_eq_append] at heq hrest
      rw [← List.append_assoc] at heq
      obtain rfl : name = last := by simpa using (List.append_inj' heq rfl).2
      exact absurd (List.eq_of_mem_replicate (hrest.subset (by simp))) hname

/-- On the fresh store, putting a value tries to create every stage that can be missing. -/
theorem exists_log_kvPut {value : Bytes} {front : FilePath} {name : Name}
    (hstage : front ++ [name] <+: store.place key) (hname : Proper name)
    (hvalid : ∀ other ∈ front, Proper other → ValidName other)
    (hblock : ∀ stage, stage <+: front → normal [] stage ≠ store.block value)
    (hlink : ¬ normal [] (front ++ [name]) <+: store.linkDir)
    (hdata : ¬ normal [] (front ++ [name]) <+: store.dataDir)
    (hinside : ¬ Inside store (front ++ [name])) :
    ∃ path ∈ ((store.kvPut key value).run store.fresh).state.log,
      normal [] path = normal [] (front ++ [name]) := by
  obtain ⟨middle, -, hstored, hsound, hrun⟩ := run_kvPut_eq key value store.initial_fresh.sound
  have hnone : middle.tree.get (normal [] (front ++ [name])) = none := by
    rw [hstored.get_other, get_fresh, if_neg (by simp [hlink, hdata])]
    intro hpre
    rcases prefix_append_cases hpre with habove | ⟨rest, heq, -⟩
    · exact hdata habove
    · refine hinside (Or.inr ⟨heq ▸ List.prefix_append _ _, fun hsame => hdata ?_⟩)
      rw [hsame]
  have hhome : front ++ [name] <+: store.home key := by
    obtain ⟨count, hcount, -⟩ := store.place_eq_home key
    refine snoc_prefix_of_append_nils count (fun hnil => hname.1 (Or.inl hnil)) ?_
    rwa [← hcount]
  have hfree : middle.tree.Enterable ([] ++ front.filter (· ≠ [])) := by
    rw [List.nil_append]
    refine FileTree.Enterable.filter ⟨fun stage hpre => ?_, hvalid⟩
    rw [hstored, if_neg (hblock stage hpre)]
    split
    · exact Or.inr rfl
    · rw [get_fresh]
      split
      · exact Or.inr rfl
      · exact Or.inl rfl
  have hresolve : middle.tree.resolve (store.home key) = none := by
    cases hresolve : middle.tree.resolve (store.home key) with
    | none => rfl
    | some reached =>
        rcases FileTree.resolve_cases hsound.linksToFiles hresolve with ⟨hpass, -⟩ |
          ⟨dir, last, content, hdir, hpass, -, hfile, hnode⟩
        · have hstageDir := hpass _ hhome
          rw [hnone] at hstageDir
          simp at hstageDir
        · rw [hdir] at hhome hnode
          rcases List.prefix_concat_iff.1 hhome with heq | hpre
          · rw [← heq, hnone] at hnode
            rcases hnode with rfl | hnode
            · rw [hnone] at hfile
              simp at hfile
            · simp at hnode
          · have hstageDir := hpass _ hpre
            rw [hnone] at hstageDir
            simp at hstageDir
  obtain ⟨rest, hrest⟩ := hhome
  have hname' : name ≠ [] := fun hnil => hname.1 (Or.inl hnil)
  have hfilter : (store.home key).filter (· ≠ []) =
      front.filter (· ≠ []) ++ name :: rest.filter (· ≠ []) := by
    rw [← hrest]
    simp [hname']
  have hnormal : normal [] (front.filter (· ≠ []) ++ [name]) = normal [] (front ++ [name]) := by
    rw [normal_append, normal_append, normal_filter]
  obtain ⟨path, hpath, heq⟩ := exists_log_createMissing (ε := Exception)
    (rest.filter (· ≠ [])) false hsound.linksToFiles (FileTree.passable_nil _)
    hfree hname (by rw [List.nil_append, hnormal, hnone])
  refine ⟨path, ?_, by rw [heq, List.nil_append, hnormal]⟩
  rw [hrun, run_putLink_eq]
  refine mem_log_bind (P := fun _ => True) ?_ fun made => ?_
  · rw [ensureDirectory, run_bind, run_present, hresolve]
    simp only [Option.isSome_none, Bool.false_eq_true, if_false, createDirectories, hfilter]
    exact hpath
  · refine Preserves.ite (fun _ => ?_) fun _ => Preserves.pure _
    refine Preserves.bind logged_present fun there =>
      Preserves.ite (fun _ => Preserves.pure _) fun _ => ?_
    exact Preserves.bind (preserves_pathText _) fun text =>
      Preserves.bind (logged_createNode _ trivial) fun _ => Preserves.pure _

end Calls

/-- The calls on a key open, create and remove only paths strictly inside the store's directories,
in every state of the store, exactly if the key is confined. -/
theorem key_confined_iff (store : FFStore) (platform : Platform) (key : Bytes) :
    (∀ world, Sound store world.tree → world.log = [] → ∀ call : KeyCall,
      ∀ path ∈ ((call.run store platform key).run world).state.log, Inside store path) ↔
      Confined store key := by
  constructor
  · intro h
    refine ⟨?_, fun value front name hstage hname hvalid hblock => ?_⟩
    · refine h store.fresh store.initial_fresh.sound rfl .remove _ ?_
      exact mem_log_bind (P := fun _ => True)
        (place_mem_log_kvRemove store platform key store.fresh) fun _ => Preserves.pure _
    · by_contra hnot
      push Not at hnot
      obtain ⟨hinside, hlink, hdata⟩ := hnot
      obtain ⟨path, hpath, heq⟩ :=
        exists_log_kvPut hstage hname hvalid hblock hlink hdata hinside
      refine hinside ((inside_congr heq).1 ?_)
      refine h store.fresh store.initial_fresh.sound rfl (.put value) path ?_
      exact mem_log_bind (P := fun _ => True) hpath fun _ => Preserves.pure _
  · intro h world hsound hlog call path hpath
    have hnew : path ∈ world.log ∨ Inside store path := by
      cases call with
      | put value =>
          rcases mem_log_of_bind (P := Inside store) hpath fun _ => Preserves.pure _ with
            hput | hinside
          · exact h.log_kvPut hsound value hput
          · exact Or.inr hinside
      | get =>
          exact (Preserves.bind (logged_kvGet platform h.place) (fun _ => Preserves.pure _)
            world).mem hpath
      | remove =>
          exact (Preserves.bind (logged_kvRemove platform h.place) (fun _ => Preserves.pure _)
            world).mem hpath
    simpa [hlog] using hnew

/-- Hashed keys are confined. -/
theorem confined_of_hexId {store : FFStore} {key : Bytes} (h : HexId (validateKey store.sha key)) :
    Confined store key := by
  have hplain := (validPath_keyDir h).plain
  have hlink := store.linkDir_valid.plain
  refine ⟨?_, fun value front name hstage _ _ _ => ?_⟩
  · rw [place_eq_keyDir h]
    exact Or.inl (strictly_inside_of_plain hlink h.validPath_shard.plain (by simp [shard]))
  · rw [place_eq_keyDir h] at hstage
    have hstagePlain : Plain (front ++ [name]) := fun other hother =>
      hplain other (hstage.subset hother)
    rw [normal_of_plain hstagePlain, List.nil_append]
    rcases prefix_append_cases hstage with habove | ⟨rest, heq, -⟩
    · exact Or.inr (Or.inl habove)
    · by_cases hrest : rest = []
      · rw [heq, hrest, List.append_nil]
        exact Or.inr (Or.inl (List.prefix_refl _))
      · rw [heq] at hstagePlain ⊢
        exact Or.inl (Or.inl (strictly_inside_of_plain hlink (fun other hother =>
          hstagePlain other (List.mem_append_right _ hother)) hrest))

end AnarchNet.FFStore
