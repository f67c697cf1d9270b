import AnarchNet.Blockstore.KeyValue
import AnarchNet.FFStore.Multimap

/-!
# What removing a key leaves in the block store

A key can have a block in the unique directory and a directory of its own in the mid directory.
`kv_remove` removes the block if there is one, and only otherwise the directory.
`kvRemove_clears_iff` says in which trees that are reached by putting nothing of the key is left, and
for hashed keys from which calls such a tree comes.
-/

namespace AnarchNet

open FileSystem EStateM

namespace KvBlockstore

variable {store : KvBlockstore}

/-- Put the pairs one after the other, as long as the calls return true. -/
def kvPuts (store : KvBlockstore) : List (Bytes × Bytes) → Storage Bool
  | [] => return true
  | (key, value) :: rest => do
      if ← store.kvPut key value then store.kvPuts rest
      else return false

/-- The empty store: its three directories are there and empty, and the links of the file system
lead to files. -/
structure Empty (store : KvBlockstore) (tree : FileTree) : Prop
    extends Blockstore.Empty store.toBlockstore tree where
  mid : tree.get store.midDir = some .dir
  midEmpty : ∀ rest, rest ≠ [] → tree.get (store.midDir ++ rest) = none

/-- Removing the key returns true. Then neither a block nor a directory of the key is there, and an
uncached `kv_get` returns false. -/
def Clears (store : KvBlockstore) (platform : Platform) (key : Bytes) (world : World) : Prop :=
  ∃ after, (store.kvRemove platform key).run world = .ok true after ∧
    after.tree.resolve (store.uniqueAt key) = none ∧
    after.tree.resolve (store.midAt key) = none ∧
    ∃ last, (store.kvGetUncached platform key).run after = .ok (false, []) last

/-- The key has a block that can be removed, and it has no other directory. -/
structure OnlyUnique (store : KvBlockstore) (tree : FileTree) (key : Bytes) : Prop where
  takes : tree.Takes (store.uniqueAt key)
  noMid : tree.resolve (store.midAt key) = none ∨
    normal [] (store.midAt key) = normal [] (store.uniqueAt key)

/-- The key has no block. It has a directory of nodes without entries, and its path ends in a name
and does not go through these nodes. -/
structure OnlyMid (store : KvBlockstore) (tree : FileTree) (key : Bytes) : Prop where
  noUnique : tree.locate (store.uniqueAt key) = none
  passable : tree.Passable (store.midAt key)
  endsInName : EndsInName (store.midAt key)
  entries : ∀ name ∈ tree.names (normal [] (store.midAt key)),
    tree.names (normal [] (store.midAt key) ++ [name]) = []
  stages : ∀ stage name, stage <+: store.midAt key →
    ¬ normal [] (store.midAt key) ++ [name] <+: normal [] stage

section Calls

variable {world after : World} {platform : Platform} {key : Bytes}

/-- A key whose paths lead nowhere is not found. -/
theorem run_kvGetUncached_missing (platform : Platform)
    (hunique : world.tree.resolve (store.uniqueAt key) = none)
    (hmid : world.tree.resolve (store.midAt key) = none) :
    ∃ last, (store.kvGetUncached platform key).run world = .ok (false, []) last := by
  refine ⟨{ world with log := world.log ++ [store.uniqueAt key] }, ?_⟩
  rw [uniqueAt] at hunique
  rw [midAt] at hmid
  simp only [kvGetUncached, kvGetBy, run_bind, run_tryCatch_eq, Blockstore.loadBlock,
    run_pathText_validateKey, run_openIn, hunique, run_throw_eq, readMid, run_isDirectory, hmid]
  rfl

/-- Removing that leaves nothing where the paths of the key lead. -/
theorem clears_of_missing (hrun : (store.kvRemove platform key).run world = .ok true after)
    (hunique : after.tree.resolve (store.uniqueAt key) = none)
    (hmid : after.tree.resolve (store.midAt key) = none) : Clears store platform key world :=
  ⟨after, hrun, hunique, hmid, run_kvGetUncached_missing platform hunique hmid⟩

/-- The end of `kv_remove`, when there was no block to remove. -/
def removeMid (store : KvBlockstore) (platform : Platform) (key : Bytes) : Storage Bool := do
  let names ← listDirectory platform.listing (store.midAt key)
  if ← store.removeEntries (shardText (validateKey store.sha key)) names then
    remove (store.midAt key)
  else return false

/-- `kv_remove` removes the block, or else the directory. -/
theorem run_kvRemove_eq (platform : Platform) (key : Bytes) :
    (store.kvRemove platform key).run world =
      (remove (store.uniqueAt key) >>= fun removed =>
        if removed = true then return true else store.removeMid platform key : Storage Bool).run
          world := by
  simp only [kvRemove, run_bind, run_pathText_validateKey]
  rfl

/-- A key with a zero byte was put where its path does not lead to a directory. -/
def Cut (store : KvBlockstore) (tree : FileTree) (key : Bytes) : Prop :=
  (0 : UInt8) ∈ validateKey store.sha key →
    ∃ node, tree.get (normal [] (store.midAt key)) = some node ∧ node ≠ .dir

/-- There is no zero byte in a key whose path goes through directories. -/
theorem Cut.zero_not_mem {tree : FileTree} (h : Cut store tree key)
    (hpass : tree.Passable (store.midAt key)) : (0 : UInt8) ∉ validateKey store.sha key := by
  intro hzero
  obtain ⟨node, hnode, hdir⟩ := h hzero
  rw [hpass.get_normal, Option.some.injEq] at hnode
  exact hdir hnode.symm

/-- Removing a key with nothing but a block. -/
theorem OnlyUnique.clears (h : OnlyUnique store world.tree key)
    (hlinks : world.tree.LinksAvoidDirs) (platform : Platform) :
    Clears store platform key world := by
  have hshrinks := FileTree.shrinks_prune (List.prefix_refl (normal [] (store.uniqueAt key)))
    world.tree
  have hlinks' := hlinks.of_shrinks hshrinks
  obtain ⟨found, hlocate, -, hroot, -⟩ := h.takes
  obtain ⟨rfl, -⟩ := FileTree.locate_eq_normal hlinks hlocate
  have hgone : (world.tree.prune (normal [] (store.uniqueAt key))).get
      (normal [] (store.uniqueAt key)) = none := by
    rw [FileTree.get_prune hroot, if_pos (List.prefix_refl _)]
  have hunique := FileTree.resolve_of_get_none hlinks' hgone
  have hmid : (world.tree.prune (normal [] (store.uniqueAt key))).resolve (store.midAt key) =
      none := by
    rcases h.noMid with hnone | hsame
    · exact FileTree.resolve_none_of_shrinks hshrinks hnone
    · exact FileTree.resolve_of_get_none hlinks' (hsame ▸ hgone)
  have hrun : (store.kvRemove platform key).run world =
      .ok true { tree := world.tree.prune (normal [] (store.uniqueAt key)),
                 log := world.log ++ [store.uniqueAt key] } := by
    rw [run_kvRemove_eq, run_bind, (run_remove_true_iff hlinks).2 ⟨h.takes, rfl⟩]
    rfl
  exact clears_of_missing hrun hunique hmid

/-- The names that a listing of a directory holds. -/
theorem mem_order_names (platform : Platform) (tree : FileTree) (dir : FilePath) (name : Name) :
    name ∈ platform.listing.order (tree.names dir) ↔ tree.get (dir ++ [name]) ≠ none := by
  rw [(platform.listing.perm _).mem_iff, FileTree.mem_names]

/-- Listing the directory of a key. -/
theorem run_listDirectory_midAt (platform : Platform) (hpass : world.tree.Passable (store.midAt key)) :
    (listDirectory platform.listing (store.midAt key) : Storage (List Name)).run world =
      .ok (platform.listing.order (world.tree.names (normal [] (store.midAt key))))
        { world with log := world.log ++ [store.midAt key] } := by
  simp [listDirectory, FileTree.resolve_of_passable hpass, hpass.get_normal]

/-- Removing a key with nothing but a directory. -/
theorem OnlyMid.clears (h : OnlyMid store world.tree key) (hlinks : world.tree.LinksAvoidDirs)
    (hcut : Cut store world.tree key) (platform : Platform) : Clears store platform key world := by
  have hpass := h.passable
  have hzero := hcut.zero_not_mem hpass
  have hmem := mem_order_names platform world.tree (normal [] (store.midAt key))
  obtain ⟨emptied, hemptied, hunnamed, hlinks', hpass'⟩ :=
    @run_removeNamed_ok Exception _
    { tree := world.tree, log := world.log ++ [store.uniqueAt key] ++ [store.midAt key] } _ _
    hlinks ((platform.listing.perm _).nodup_iff.2 (world.tree.names_nodup _)) hpass
    (fun name hname => ⟨(hmem name).1 hname, h.entries name (FileTree.mem_names.2 ((hmem name).1 hname))⟩)
    h.stages
  have hroot : normal [] (store.midAt key) ≠ [] := by
    obtain ⟨name, hlast, hname⟩ := endsInName_iff.1 h.endsInName
    rw [← normal_filter, ← List.dropLast_append_getLast? name hlast, normal_append, normal_cons,
      normal_nil, enter_of_proper hname]
    simp
  have hnames : emptied.tree.names (normal [] (store.midAt key)) = [] := by
    rw [FileTree.names_eq_nil_iff]
    intro name
    rw [hunnamed]
    split
    · rfl
    · next hnot =>
        by_contra hnode
        exact hnot ⟨name, (hmem name).2 hnode, List.prefix_refl _⟩
  have htakes : emptied.tree.Takes (store.midAt key) :=
    ⟨_, FileTree.locate_of_passable_dir hlinks' hpass', h.endsInName, hroot, hnames⟩
  have hremove := (run_remove_true_iff (ε := Exception) hlinks').2 ⟨htakes, rfl⟩
  have hshrinks : FileTree.Shrinks (normal [] (store.midAt key)) world.tree emptied.tree := by
    intro path
    rw [hunnamed]
    split
    · next hname =>
        obtain ⟨name, -, hpath⟩ := hname
        exact Or.inr ⟨(List.prefix_append _ _).trans hpath, rfl⟩
    · exact Or.inl rfl
  have hprune := FileTree.shrinks_prune (List.prefix_refl (normal [] (store.midAt key))) emptied.tree
  have hunique := FileTree.resolve_none_of_shrinks (hshrinks.trans hprune)
    (FileTree.resolve_of_locate_none hlinks h.noUnique)
  have hgone : (emptied.tree.prune (normal [] (store.midAt key))).get
      (normal [] (store.midAt key)) = none := by
    rw [FileTree.get_prune hroot, if_pos (List.prefix_refl _)]
  have hmid := FileTree.resolve_of_get_none (hlinks'.of_shrinks hprune) hgone
  have hrun : (store.kvRemove platform key).run world =
      .ok true { tree := emptied.tree.prune (normal [] (store.midAt key)),
                 log := emptied.log ++ [store.midAt key] } := by
    have hlist := @run_listDirectory_midAt _
      { world with log := world.log ++ [store.uniqueAt key] } _ platform hpass
    rw [run_kvRemove_eq, run_bind, run_remove_false_iff.2 ⟨h.noUnique, rfl⟩]
    simp only [Bool.false_eq_true, if_false, removeMid, run_bind, hlist]
    rw [removeEntries_eq hzero fun name hname => FileTree.get_valid ((hmem name).1 hname), hemptied]
    simp only [if_true, hremove]
  exact clears_of_missing hrun hunique hmid

/-- A directory that was removed with all its entries. -/
theorem onlyMid_of_removeMid (hlinks : world.tree.LinksAvoidDirs) (hcut : Cut store world.tree key)
    (hnone : world.tree.locate (store.uniqueAt key) = none)
    (hrun : (store.removeMid platform key).run world = .ok true after) :
    OnlyMid store world.tree key := by
  obtain ⟨names, listed, hlist, hrest⟩ := run_bind_eq_ok hrun
  have hpass : world.tree.Passable (store.midAt key) := by
    rw [← FileTree.resolve_dir_iff hlinks]
    simp only [listDirectory, run_bind, run_record, run_get] at hlist
    cases hresolve : world.tree.resolve (store.midAt key) with
    | none => simp [hresolve] at hlist
    | some dir =>
        by_cases hdir : world.tree.get dir = some .dir
        · rw [Option.bind_some, hdir]
        · simp [hresolve, hdir] at hlist
  rw [run_listDirectory_midAt platform hpass, Result.ok.injEq] at hlist
  obtain ⟨rfl, rfl⟩ := hlist
  have hmem := mem_order_names platform world.tree (normal [] (store.midAt key))
  have hvalid : ∀ name ∈ platform.listing.order (world.tree.names (normal [] (store.midAt key))),
      ValidName name := fun name hname => FileTree.get_valid ((hmem name).1 hname)
  rw [removeEntries_eq (hcut.zero_not_mem hpass) hvalid] at hrest
  obtain ⟨removed, between, hremoved, hrest⟩ := run_bind_eq_ok hrest
  cases removed with
  | false => simp at hrest
  | true =>
      obtain ⟨hentries, hunnamed, hlinks'⟩ := @run_removeNamed_true Exception _
        { world with log := world.log ++ [store.midAt key] } _ _ _ hlinks
        ((platform.listing.perm _).nodup_iff.2 (world.tree.names_nodup _))
        (fun name hname => (hvalid name hname).1) hremoved
      simp only [if_true] at hrest
      obtain ⟨⟨found, hfound, hends, -, -⟩, -⟩ := (run_remove_true_iff hlinks').1 hrest
      have hdir : between.tree.get (normal [] (store.midAt key)) = some .dir := by
        rw [hunnamed, if_neg, hpass.get_normal]
        rintro ⟨name, -, hpre⟩
        exact absurd (eq_nil_of_append_le hpre) (by simp)
      have hpass' := FileTree.passable_of_locate hlinks' hfound
        ((FileTree.locate_eq_normal hlinks' hfound).1 ▸ hdir)
      refine ⟨hnone, hpass, hends,
        fun name hname => hentries name ((hmem name).2 (FileTree.mem_names.1 hname)),
        fun stage name hstage hpre => ?_⟩
      -- a stage below an entry would have been removed with it
      have hnode : world.tree.get (normal [] (store.midAt key) ++ [name]) ≠ none := by
        obtain ⟨rest, hrest⟩ := hpre
        have hstageDir := hpass stage hstage
        rw [← hrest] at hstageDir
        simp [FileTree.get_dir_of_append hstageDir]
      have hstill := hpass' stage hstage
      rw [hunnamed, if_pos ⟨name, (hmem name).2 hnode, hpre⟩] at hstill
      simp at hstill

/-- A key whose removal leaves nothing had only one of the two. -/
theorem Clears.only (h : Clears store platform key world) (hlinks : world.tree.LinksToFiles)
    (hapart : ∀ path target, world.tree.get path = some (.link target) →
      ¬ store.uniqueDir <+: target) (hcut : Cut store world.tree key) :
    OnlyUnique store world.tree key ∨ OnlyMid store world.tree key := by
  obtain ⟨after, hrun, -, hmid, -⟩ := h
  rw [run_kvRemove_eq] at hrun
  obtain ⟨removed, middle, hremove, hrest⟩ := run_bind_eq_ok hrun
  cases removed with
  | true =>
      obtain ⟨htakes, rfl⟩ := (run_remove_true_iff hlinks.avoidDirs).1 hremove
      simp only [if_true, run_pure, Result.ok.injEq, true_and] at hrest
      refine Or.inl ⟨htakes, ?_⟩
      rcases store.uniqueAt_cases key with ⟨hunique, hstages⟩ | hsame
      · -- the path of the directory does not go through the block
        refine Or.inl ?_
        by_contra hthere
        obtain ⟨reached, hreached⟩ := Option.ne_none_iff_exists'.1 hthere
        obtain ⟨found, hlocate, -, hroot, -⟩ := htakes
        obtain ⟨rfl, -⟩ := FileTree.locate_eq_normal hlinks.avoidDirs hlocate
        have hstill := FileTree.resolve_prune hlinks hroot
          (fun link target hlink hpre => hapart link target hlink (hunique.trans hpre))
          (fun stage hstage hpre => hstages stage hstage (hunique.trans hpre)) hreached
        rw [← hrest, hstill] at hmid
        simp at hmid
      · exact Or.inr hsame.symm
  | false =>
      obtain ⟨hlocate, rfl⟩ := run_remove_false_iff.1 hremove
      simp only [Bool.false_eq_true, if_false] at hrest
      exact Or.inr (@onlyMid_of_removeMid _ { world with log := world.log ++ [store.uniqueAt key] }
        _ _ _ hlinks.avoidDirs hcut hlocate hrest)

/-- Removing leaves nothing of a key exactly if it has only a block or only a directory. -/
theorem clears_iff (hlinks : world.tree.LinksToFiles)
    (hapart : ∀ path target, world.tree.get path = some (.link target) →
      ¬ store.uniqueDir <+: target) (hcut : Cut store world.tree key) :
    Clears store platform key world ↔
      OnlyUnique store world.tree key ∨ OnlyMid store world.tree key := by
  refine ⟨fun h => h.only hlinks hapart hcut, fun h => ?_⟩
  rcases h with h | h
  · exact h.clears hlinks.avoidDirs platform
  · exact h.clears hlinks.avoidDirs hcut platform

/-! ## Runs of `kv_put` -/

/-- A key that was put with a zero byte does not lead to a directory. -/
theorem cut_of_kvPut {value : Bytes} (hlinks : world.tree.LinksToFiles)
    (hrun : (store.kvPut key value).run world = .ok true after) : Cut store after.tree key := by
  intro hzero
  have hhex := store.sha.hexId value
  have hkey : validateKey store.sha key ≠ toHex (store.sha.hash value) := fun heq =>
    hhex.not_mem (by decide) (heq ▸ hzero)
  rw [kvPut, if_neg hkey] at hrun
  obtain ⟨text, same, htext, hrest⟩ := run_bind_eq_ok hrun
  rw [run_pathText_validateKey, Result.ok.injEq] at htext
  obtain ⟨rfl, rfl⟩ := htext
  obtain ⟨flag, made, hmade, hrest⟩ := run_bind_eq_ok hrest
  have hkept : FileTree.Kept world.tree made.tree := keeps_ensureDirectory.ok hmade
  cases flag with
  | false => simp at hrest
  | true =>
      simp only [if_true, entry_path store key (hhex.not_mem (show slash ∉ hexDigits by decide))
        (hhex.not_mem (by decide)), if_pos hzero] at hrest
      obtain ⟨found, opened, hopened, hrest⟩ := run_bind_eq_ok hrest
      rw [run_openOut_eq] at hopened
      cases hcase : made.tree.opened (store.midAt key) with
      | none =>
          rw [hcase, Result.ok.injEq] at hopened
          simp [← hopened.1] at hrest
      | some target =>
          obtain ⟨tree, file⟩ := target
          rw [hcase, Result.ok.injEq] at hopened
          obtain ⟨rfl, rfl⟩ := hopened
          obtain ⟨node, hnode, hdir⟩ :=
            FileTree.not_dir_of_opened (hkept.linksToFiles hlinks) hcase
          obtain ⟨_, written, hwritten, hlast⟩ := run_bind_eq_ok hrest
          have hwrite : FileTree.Kept tree written.tree := (keeps_writeAt file 0 value).ok hwritten
          rw [run_pure, Result.ok.injEq] at hlast
          exact hlast.2 ▸ hwrite.not_dir hnode hdir

/-- Putting keeps what is there, and no key with a zero byte among those put leads to a
directory. -/
theorem run_kvPuts {puts : List (Bytes × Bytes)} (hlinks : world.tree.LinksToFiles)
    (hrun : (store.kvPuts puts).run world = .ok true after) :
    FileTree.Kept world.tree after.tree ∧ ∀ put ∈ puts, Cut store after.tree put.1 := by
  induction puts generalizing world with
  | nil =>
      rw [kvPuts, run_pure, Result.ok.injEq] at hrun
      exact ⟨hrun.2 ▸ .refl world.tree, by simp⟩
  | cons put puts ih =>
      obtain ⟨flag, middle, hput, hrest⟩ := run_bind_eq_ok hrun
      cases flag with
      | false => simp at hrest
      | true =>
          have hkept : FileTree.Kept world.tree middle.tree := (keeps_kvPut put.1 put.2).ok hput
          obtain ⟨hkept', hcut⟩ := ih (hkept.linksToFiles hlinks) hrest
          refine ⟨hkept.trans hkept', fun other hother => ?_⟩
          rcases List.mem_cons.1 hother with rfl | hother
          · intro hzero
            obtain ⟨node, hnode, hdir⟩ := cut_of_kvPut hlinks hput hzero
            exact hkept'.not_dir hnode hdir
          · exact hcut other hother

/-! ## Hashed keys -/

/-- Some value was put under a key as a block. -/
def PutUnique (store : KvBlockstore) (puts : List (Bytes × Bytes)) (id : Bytes) : Prop :=
  ∃ put ∈ puts, validateKey store.sha put.1 = id ∧ store.idOf put.2 = id

/-- Some value was put in the directory of a key. -/
def PutMid (store : KvBlockstore) (puts : List (Bytes × Bytes)) (id : Bytes) : Prop :=
  ∃ put ∈ puts, validateKey store.sha put.1 = id ∧ store.idOf put.2 ≠ id

/-- One more block. -/
theorem putUnique_snoc {puts : List (Bytes × Bytes)} {value id : Bytes} :
    PutUnique store (puts ++ [(key, value)]) id ↔
      PutUnique store puts id ∨ validateKey store.sha key = id ∧ store.idOf value = id := by
  simp [PutUnique, or_and_right, exists_or]

/-- One more entry. -/
theorem putMid_snoc {puts : List (Bytes × Bytes)} {value id : Bytes} :
    PutMid store (puts ++ [(key, value)]) id ↔
      PutMid store puts id ∨ validateKey store.sha key = id ∧ store.idOf value ≠ id := by
  simp [PutMid, or_and_right, exists_or]

/-- The tree holds a block or a directory of a key exactly if something was put there. -/
structure HoldsPuts (store : KvBlockstore) (puts : List (Bytes × Bytes)) (tree : FileTree) :
    Prop where
  sound : KvSound store tree
  unique : ∀ id, HexId id → (tree.get (store.uniqueDir ++ shard id) ≠ none ↔ PutUnique store puts id)
  mid : ∀ id, HexId id → (tree.get (store.midDir ++ shard id) ≠ none ↔ PutMid store puts id)

/-- Nothing was put in the empty store. -/
theorem Empty.holdsPuts {tree : FileTree} (h : Empty store tree) : HoldsPuts store [] tree := by
  refine ⟨⟨h.toEmpty.sound, h.mid, fun id above _ _ => ?_, fun id name _ => ?_⟩, fun id _ => ?_,
    fun id _ => ?_⟩
  · by_cases habove : above = []
    · exact Or.inr (by rw [habove, List.append_nil, h.mid])
    · exact Or.inl (h.midEmpty above habove)
  · exact Or.inl (by rw [List.append_assoc, h.midEmpty _ (by simp [shard])])
  · simp [h.uniqueEmpty (shard id) (by simp [shard]), PutUnique]
  · simp [h.midEmpty (shard id) (by simp [shard]), PutMid]

/-- One more value was put under a hashed key. -/
theorem HoldsPuts.put {puts : List (Bytes × Bytes)} (h : HoldsPuts store puts world.tree)
    (value : Bytes) (hkey : HexId (validateKey store.sha key)) :
    ∃ after, (store.kvPut key value).run world = .ok true after ∧
      HoldsPuts store (puts ++ [(key, value)]) after.tree := by
  by_cases hunique : validateKey store.sha key = store.idOf value
  · obtain ⟨after, hrun, hsound, hnow⟩ := run_kvPut_unique h.sound hunique
    refine ⟨after, hrun, hsound, fun id hid => ?_, fun id hid => ?_⟩
    · rw [putUnique_snoc, ← h.unique id hid, ne_eq, ne_eq, ← hnow.sound.view_eq_none hid,
        ← h.sound.toSound.view_eq_none hid, hnow.view id hid, hunique]
      by_cases heq : id = store.idOf value
      · simp [heq]
      · rw [Blockstore.setId_other _ _ heq]
        simp [Ne.symm heq]
    · rw [hnow.outside _ (store.not_unique_of_mid (List.prefix_append _ _)), h.mid id hid,
        putMid_snoc, hunique]
      simp
  · obtain ⟨after, hrun, hsound, hstored⟩ := run_kvPut_mid h.sound hkey hunique
    rw [keyDir, List.append_assoc] at hstored
    refine ⟨after, hrun, hsound, fun id hid => ?_, fun id hid => ?_⟩
    · rw [hstored.get_other (store.unique_not_above_mid _ _), h.unique id hid, putUnique_snoc]
      refine (or_iff_left ?_).symm
      rintro ⟨rfl, heq⟩
      exact hunique heq.symm
    · rw [hstored, putMid_snoc, ← h.mid id hid]
      simp only [List.append_cancel_left_eq, List.prefix_append_right_inj]
      have hne : shard id ≠ shard (validateKey store.sha key) ++ [store.idOf value] := fun heq =>
        absurd (congrArg List.length heq) (by simp [shard])
      rw [if_neg hne]
      by_cases heq : validateKey store.sha key = id
      · rw [heq, if_pos (List.prefix_append _ _)]
        simp [heq ▸ Ne.symm hunique]
      · rw [if_neg fun hpre => heq ?_]
        · simp [heq]
        · exact (id_eq_of_shard_le (List.prefix_of_prefix_length_le hpre (List.prefix_append _ _)
            (by simp [shard]))).symm

/-- A run on hashed keys. -/
theorem HoldsPuts.run {puts : List (Bytes × Bytes)} (h : HoldsPuts store puts world.tree)
    {more : List (Bytes × Bytes)} (hkeys : ∀ put ∈ more, HexId (validateKey store.sha put.1)) :
    ∃ after, (store.kvPuts more).run world = .ok true after ∧
      HoldsPuts store (puts ++ more) after.tree := by
  induction more generalizing puts world with
  | nil => exact ⟨world, rfl, by simpa using h⟩
  | cons put more ih =>
      obtain ⟨middle, hput, hmiddle⟩ := h.put put.2 (hkeys put (by simp))
      obtain ⟨after, hrun, hafter⟩ := ih hmiddle fun other hother => hkeys other (by simp [hother])
      refine ⟨after, ?_, by simpa using hafter⟩
      rw [kvPuts, run_bind, hput]
      exact hrun

/-- The paths of a hashed key are plain. -/
theorem plain_uniqueAt (hkey : HexId (validateKey store.sha key)) : Plain (store.uniqueAt key) := by
  rw [uniqueAt_eq hkey]
  exact (hkey.validPath store.uniqueDir_valid).plain

/-- The paths of a hashed key are plain. -/
theorem plain_midAt (hkey : HexId (validateKey store.sha key)) : Plain (store.midAt key) := by
  rw [midAt_eq_keyDir hkey]
  exact (hkey.validPath store.midDir_valid).plain

/-- A plain path that is not empty ends in a name. -/
theorem endsInName_of_plain {path : FilePath} (hplain : Plain path) (hne : path ≠ []) :
    EndsInName path := by
  obtain ⟨front, name, rfl⟩ := (List.eq_nil_or_concat path).resolve_left hne
  rw [List.concat_eq_append] at hplain ⊢
  exact endsInName_snoc front (hplain name (by simp))

/-- What is at a plain path that is not empty is what it names. -/
theorem locate_of_get {tree : FileTree} {path : FilePath} {node : Node} (hplain : Plain path)
    (hne : path ≠ []) (hnode : tree.get path = some node) : tree.locate path = some path := by
  obtain ⟨front, name, rfl⟩ := (List.eq_nil_or_concat path).resolve_left hne
  rw [List.concat_eq_append] at hplain hnode ⊢
  exact FileTree.locate_of_plain hplain hnode

/-- A hashed key with a block and no directory. -/
theorem KvSound.onlyUnique {tree : FileTree} (h : KvSound store tree)
    (hkey : HexId (validateKey store.sha key)) (hunique : tree.get (store.uniqueAt key) ≠ none)
    (hmid : tree.get (store.midAt key) = none) : OnlyUnique store tree key := by
  have hne : store.uniqueAt key ≠ [] := by simp [uniqueAt_eq hkey, shard]
  obtain ⟨node, hnode⟩ := Option.ne_none_iff_exists'.1 hunique
  refine ⟨⟨_, locate_of_get (plain_uniqueAt hkey) hne hnode, endsInName_of_plain
    (plain_uniqueAt hkey) hne, hne, ?_⟩, Or.inl
      (FileTree.resolve_of_missing h.links.avoidDirs (plain_midAt hkey) hmid)⟩
  rw [uniqueAt_eq hkey] at hunique ⊢
  obtain ⟨content, hfile⟩ := (h.blocks.files _ hkey).resolve_left hunique
  refine FileTree.names_eq_nil ?_
  rw [hfile]
  simp

/-- A hashed key with a directory and no block. -/
theorem KvSound.onlyMid {tree : FileTree} (h : KvSound store tree)
    (hkey : HexId (validateKey store.sha key)) (hunique : tree.get (store.uniqueAt key) = none)
    (hmid : tree.get (store.midAt key) ≠ none) : OnlyMid store tree key := by
  have hplain := plain_midAt hkey
  have hdir : tree.get (store.midAt key) = some .dir := by
    rw [midAt_eq_keyDir hkey] at hmid ⊢
    exact (h.midAbove _ _ hkey (List.prefix_refl _)).resolve_left hmid
  refine ⟨FileTree.locate_of_missing h.links.avoidDirs (plain_uniqueAt hkey) hunique,
    FileTree.passable_of_plain hplain hdir,
    endsInName_of_plain hplain (by simp [midAt_eq_keyDir hkey, keyDir, shard]),
    fun name _ => ?_, fun stage name hstage hpre => ?_⟩
  · rw [normal_of_plain hplain, List.nil_append, midAt_eq_keyDir hkey, keyDir]
    refine FileTree.names_eq_nil ?_
    rcases h.midEntries _ name hkey with hnone | ⟨content, hfile⟩
    · rw [hnone]
      simp
    · rw [hfile]
      simp
  · obtain ⟨rest, hrest⟩ := hstage
    rw [normal_of_plain hplain, normal_of_plain fun other hother => hplain other
      (hrest ▸ List.mem_append_left _ hother), List.nil_append, List.nil_append] at hpre
    exact absurd (eq_nil_of_append_le (hpre.trans ⟨rest, hrest⟩)) (by simp)

/-- A hashed key with a block and a directory has neither of them alone. -/
theorem KvSound.not_only {tree : FileTree} (h : KvSound store tree)
    (hkey : HexId (validateKey store.sha key)) (hunique : tree.get (store.uniqueAt key) ≠ none)
    (hmid : tree.get (store.midAt key) ≠ none) :
    ¬ (OnlyUnique store tree key ∨ OnlyMid store tree key) := by
  rintro (⟨-, hnone⟩ | ⟨hnone, -⟩)
  · have hdir : tree.get (store.midAt key) = some .dir := by
      rw [midAt_eq_keyDir hkey] at hmid ⊢
      exact (h.midAbove _ _ hkey (List.prefix_refl _)).resolve_left hmid
    rw [FileTree.resolve_of_get (plain_midAt hkey) hdir (by simp), normal_of_plain
      (plain_midAt hkey), normal_of_plain (plain_uniqueAt hkey), midAt_eq_keyDir hkey,
      uniqueAt_eq hkey, keyDir] at hnone
    simp only [List.nil_append, reduceCtorEq, false_or] at hnone
    have hle := store.unique_not_above_mid (shard (validateKey store.sha key))
      (shard (validateKey store.sha key))
    rw [hnone] at hle
    exact hle (List.prefix_refl _)
  · obtain ⟨node, hnode⟩ := Option.ne_none_iff_exists'.1 hunique
    rw [locate_of_get (plain_uniqueAt hkey) (by simp [uniqueAt_eq hkey, shard]) hnode] at hnone
    simp at hnone

/-- A hashed key that was put has only a block or only a directory exactly if it was not put in both
ways. -/
theorem HoldsPuts.only_iff {puts : List (Bytes × Bytes)} (h : HoldsPuts store puts world.tree)
    (hkey : HexId (validateKey store.sha key))
    (hput : PutUnique store puts (validateKey store.sha key) ∨
      PutMid store puts (validateKey store.sha key)) :
    OnlyUnique store world.tree key ∨ OnlyMid store world.tree key ↔
      ¬ (PutUnique store puts (validateKey store.sha key) ∧
        PutMid store puts (validateKey store.sha key)) := by
  rw [← h.unique _ hkey, ← h.mid _ hkey, ← keyDir, ← midAt_eq_keyDir hkey,
    ← uniqueAt_eq hkey] at hput ⊢
  constructor
  · rintro honly ⟨hunique, hmid⟩
    exact h.sound.not_only hkey hunique hmid honly
  · intro hnot
    by_cases hunique : world.tree.get (store.uniqueAt key) = none
    · exact Or.inr (h.sound.onlyMid hkey hunique (hput.resolve_left (not_not_intro hunique)))
    · refine Or.inl (h.sound.onlyUnique hkey hunique ?_)
      by_contra hmid
      exact hnot ⟨hunique, hmid⟩

/-- After values were put under keys, removing a key that was among them leaves nothing of it exactly
if the key has only a block or only a directory. Where all keys are hashed or the hex form of a hash,
that is so exactly if the key was not put both with a value that has it as its hash and with another
one. -/
theorem kvRemove_clears_iff (store : KvBlockstore) (platform : Platform)
    (puts : List (Bytes × Bytes)) (world after : World) (key : Bytes)
    (hempty : Empty store world.tree) (hrun : (store.kvPuts puts).run world = .ok true after)
    (hput : ∃ put ∈ puts, put.1 = key) :
    (Clears store platform key after ↔
        OnlyUnique store after.tree key ∨ OnlyMid store after.tree key) ∧
      ((∀ put ∈ puts, HexId (validateKey store.sha put.1)) →
        (Clears store platform key after ↔
          ¬ (PutUnique store puts (validateKey store.sha key) ∧
            PutMid store puts (validateKey store.sha key)))) := by
  obtain ⟨hkept, hcut⟩ := run_kvPuts hempty.links hrun
  obtain ⟨put, hmem, rfl⟩ := hput
  have hiff : Clears store platform put.1 after ↔
      OnlyUnique store after.tree put.1 ∨ OnlyMid store after.tree put.1 :=
    clears_iff (hkept.linksToFiles hempty.links)
      (fun path target hlink => hempty.toEmpty.sound.apart path target
        ((hkept.links path target).1 hlink)) (hcut put hmem)
  refine ⟨hiff, fun hkeys => hiff.trans ?_⟩
  obtain ⟨last, hlast, hholds⟩ := hempty.holdsPuts.run hkeys
  obtain ⟨-, rfl⟩ := Result.ok.inj (hrun.symm.trans hlast)
  refine HoldsPuts.only_iff hholds (hkeys put hmem) ?_
  by_cases heq : store.idOf put.2 = validateKey store.sha put.1
  · exact Or.inl ⟨put, hmem, rfl, heq⟩
  · exact Or.inr ⟨put, hmem, rfl, heq⟩

end Calls

/-! ## A fresh store -/

/-- The file system on which nothing but the three directories was made. -/
def fresh (store : KvBlockstore) : World :=
  ((ensureDirectory store.midDir : Storage Bool).run store.toBlockstore.fresh).state

/-- The fresh store is empty. -/
theorem empty_fresh (store : KvBlockstore) : Empty store store.fresh.tree := by
  have hbase := store.toBlockstore.empty_fresh
  obtain ⟨after, hrun, hlinks, hget⟩ := run_ensureDirectory (ε := Exception) hbase.links
    store.midDir_valid.plain (fun above _ => by
      rw [Blockstore.get_fresh]
      split
      · exact Or.inr rfl
      · exact Or.inl rfl) store.midDir_valid
  have htree : store.fresh.tree = after.tree := by rw [fresh, hrun, Result.state_ok]
  have hunique : ∀ rest, after.tree.get (store.uniqueDir ++ rest) =
      store.toBlockstore.fresh.tree.get (store.uniqueDir ++ rest) := fun rest => by
    rw [hget, if_neg fun hpre => ?_]
    rw [← List.append_nil store.midDir] at hpre
    exact store.unique_not_above_mid _ _ hpre
  have hpub : ∀ rest, after.tree.get (store.pubDir ++ rest) =
      store.toBlockstore.fresh.tree.get (store.pubDir ++ rest) := fun rest => by
    rw [hget, if_neg fun hpre => ?_]
    rw [← List.append_nil store.midDir] at hpre
    exact store.not_above_mid _ _ hpre
  rw [htree]
  refine ⟨⟨?_, fun rest hrest => ?_, ?_, fun rest hrest => ?_, hlinks⟩, ?_, fun rest hrest => ?_⟩
  · simpa using (hunique []).trans (by simpa using hbase.unique)
  · rw [hunique, hbase.uniqueEmpty rest hrest]
  · simpa using (hpub []).trans (by simpa using hbase.pub)
  · rw [hpub, hbase.pubEmpty rest hrest]
  · rw [hget, if_pos (List.prefix_refl _)]
  · rw [hget, if_neg fun hpre => hrest (eq_nil_of_append_le hpre), Blockstore.get_fresh, if_neg]
    rintro (hpre | hpre)
    · rw [store.uniqueDir_eq, midDir, List.append_assoc, List.prefix_append_right_inj,
        List.singleton_append, List.cons_prefix_cons] at hpre
      exact absurd hpre.1 (by decide)
    · exact store.mid_not_pub ((List.prefix_append store.midDir rest).trans hpre)

/-- `initialise` with the default directory names and cache sizes. -/
def initialise (sha : Sha512) (datadir : FilePath) (hvalid : ValidPath datadir) (units : Nat)
    (hpos : 0 < units) (hlt : 1024 * units < 2 ^ 32) : KvBlockstore where
  toBlockstore := Blockstore.initialise sha datadir hvalid units hpos hlt
  dataDir := datadir ++ [[98, 108, 111, 99, 107, 115, 116, 111, 114, 101], [100, 97, 116, 97]]
  uniqueDir_eq := by
    rw [List.append_assoc]
    rfl
  mid_not_pub := by
    rw [List.append_assoc, Blockstore.initialise, List.prefix_append_right_inj]
    decide
  pub_not_mid := by
    rw [List.append_assoc, Blockstore.initialise, List.prefix_append_right_inj]
    decide
  blockCacheSize := 512
  blockCacheSize_pos := by decide

/-- A store in the directory `/data` with the digests of some letters. -/
def letterStore : KvBlockstore :=
  initialise FFStore.letterStore.sha [[100, 97, 116, 97]] validPath_data 128 (by decide) (by decide)

/-- Removing the key `k` leaves nothing when only the value `a` was put under it. -/
theorem kvRemove_clears_letter :
    ∃ after, (letterStore.kvPuts [([107], [97])]).run letterStore.fresh = .ok true after ∧
      Clears letterStore FFStore.plainPlatform [107] after := by
  have hkeys : ∀ put ∈ [(([107] : Bytes), ([97] : Bytes))],
      HexId (validateKey letterStore.sha put.1) := by
    intro put hput
    exact hexId_validateKey _ (by rw [List.mem_singleton.1 hput]; decide)
  obtain ⟨after, hrun, -⟩ := letterStore.empty_fresh.holdsPuts.run hkeys
  refine ⟨after, hrun, ((kvRemove_clears_iff letterStore FFStore.plainPlatform _ _ after [107]
    letterStore.empty_fresh hrun ⟨_, List.mem_singleton.2 rfl, rfl⟩).2 hkeys).2 ?_⟩
  rintro ⟨⟨put, hput, -, heq⟩, -⟩
  rw [List.mem_singleton.1 hput] at heq
  revert heq
  decide +kernel

/-- When the values `a` and `b` were put under the key `a`, removing it leaves the entry of `b`. -/
theorem kvRemove_leaves_letter :
    Empty letterStore letterStore.fresh.tree ∧
      ∃ after, (letterStore.kvPuts [([97], [97]), ([97], [98])]).run letterStore.fresh =
        .ok true after ∧ ¬ Clears letterStore FFStore.plainPlatform [97] after := by
  have hhex : HexId (validateKey letterStore.sha [97]) := hexId_validateKey _ (by decide)
  have hkeys : ∀ put ∈ [(([97] : Bytes), ([97] : Bytes)), ([97], [98])],
      HexId (validateKey letterStore.sha put.1) := by
    intro put hput
    simp only [List.mem_cons, List.not_mem_nil, or_false] at hput
    rcases hput with rfl | rfl <;> exact hhex
  obtain ⟨after, hrun, hholds⟩ := letterStore.empty_fresh.holdsPuts.run hkeys
  refine ⟨letterStore.empty_fresh, after, hrun, ?_⟩
  obtain ⟨hkept, hcut⟩ := run_kvPuts letterStore.empty_fresh.links hrun
  have hunique : PutUnique letterStore [([97], [97]), ([97], [98])]
      (validateKey letterStore.sha [97]) := ⟨([97], [97]), by simp, rfl, by decide +kernel⟩
  have hmid : PutMid letterStore [([97], [97]), ([97], [98])]
      (validateKey letterStore.sha [97]) := ⟨([97], [98]), by simp, rfl, by decide +kernel⟩
  rw [clears_iff (hkept.linksToFiles letterStore.empty_fresh.links)
    (fun path target hlink => letterStore.empty_fresh.toEmpty.sound.apart path target
      ((hkept.links path target).1 hlink)) (hcut ([97], [97]) (by simp)),
    HoldsPuts.only_iff hholds hhex (Or.inl hunique)]
  exact not_not_intro ⟨hunique, hmid⟩

end KvBlockstore

end AnarchNet
