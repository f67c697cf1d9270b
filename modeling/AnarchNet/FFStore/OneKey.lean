import AnarchNet.FFStore.Multimap

/-!
# The texts of one key

What the flat-file store does with one key, whatever other keys it holds. The key is hashed, or is
itself the hex form of a hash. `HoldsKey` relates a tree to the texts put under the key since it was
last removed, and every call on the key keeps the relation.
-/

namespace AnarchNet.FFStore

open FileSystem

variable {store : FFStore}

/-- The tree holds exactly these texts, all of them known, under a key. -/
structure HoldsKey (store : FFStore) (known : Set Bytes) (key : Bytes) (held : List Bytes)
    (tree : FileTree) : Prop where
  sound : Sound store tree
  values : ∀ text ∈ held, text ∈ known
  free : ∀ above, above <+: store.keyDir key →
    tree.get above = none ∨ tree.get above = some .dir
  dir : tree.get (store.keyDir key) = if held = [] then none else some .dir
  entries : ∀ name, tree.get (store.keyDir key ++ [name]) =
    if name ∈ held.map (fun text => toHex (store.sha.hash text)) then
      some (.link (store.dataDir ++ shard name))
    else none
  blocks : ∀ text ∈ held, tree.get (store.block text) = some (.file text)

/-- The empty store holds nothing under any key. -/
theorem Initial.holdsKey {tree : FileTree} (h : Initial store tree) (known : Set Bytes)
    (key : Bytes) : HoldsKey store known key [] tree := by
  refine ⟨h.sound, by simp, fun above habove => ?_, ?_, fun name => ?_, by simp⟩
  · rcases prefix_append_cases habove with ⟨tail, htail⟩ | ⟨rest, rfl, -⟩
    · exact Or.inr (FileTree.get_dir_of_append (htail ▸ h.linkDir))
    · by_cases hrest : rest = []
      · exact Or.inr (by rw [hrest, List.append_nil, h.linkDir])
      · exact Or.inl (h.noEntries rest hrest)
  · rw [keyDir, h.noEntries _ (by simp [shard]), if_pos rfl]
  · rw [keyDir, List.append_assoc, h.noEntries _ (by simp [shard])]
    simp

namespace HoldsKey

variable {known : Set Bytes} {key : Bytes} {held : List Bytes} {world : World}

/-- A text put under the key joins the texts of the key. -/
theorem put (h : HoldsKey store known key held world.tree)
    (hinj : Set.InjOn store.sha.hash known) (hkey : HexId (validateKey store.sha key))
    {text : Bytes} (htext : text ∈ known) :
    ∃ after, (store.kvPut key text).run world = .ok true after ∧
      HoldsKey store known key (held ++ [text]) after.tree := by
  have hslot : world.tree.get (store.entry key text) = none ∨
      world.tree.get (store.entry key text) = some (.link (store.block text)) := by
    rw [entry, h.entries]
    split
    · exact Or.inr rfl
    · exact Or.inl rfl
  obtain ⟨middle, after, hrun, hsound, hstored, hlinked⟩ := run_kvPut h.sound hkey h.free hslot
  refine ⟨after, hrun, hsound, fun found hfound => ?_, fun above habove => ?_, ?_, fun name => ?_,
    fun found hfound => ?_⟩
  · rcases List.mem_append.1 hfound with hold | hnew
    · exact h.values found hold
    · exact List.mem_singleton.1 hnew ▸ htext
  · have hne : above ≠ store.entry key text := by
      rintro rfl
      exact entry_not_above store key text habove
    exact Or.inr (by rw [hlinked, if_neg hne, if_pos habove])
  · have hne : store.keyDir key ≠ store.entry key text := fun heq =>
      entry_not_above store key text (heq ▸ List.prefix_refl _)
    rw [hlinked, if_neg hne, if_pos (List.prefix_refl _), if_neg (by simp)]
  · have hbelow : ¬ store.keyDir key ++ [name] <+: store.keyDir key := fun hpre =>
      absurd (eq_nil_of_append_le hpre) (by simp)
    have hold : middle.get (store.keyDir key ++ [name]) =
        world.tree.get (store.keyDir key ++ [name]) := by
      rw [keyDir, List.append_assoc, get_link_of_stored hstored]
    rw [hlinked, if_neg hbelow, hold, h.entries]
    by_cases hname : name = toHex (store.sha.hash text)
    · subst hname
      simp [entry, block]
    · simp [entry, hname]
  · rw [block, hlinked.get_data, ← block, hstored]
    by_cases heq : found = text
    · rw [if_pos (by rw [heq]), heq]
    · have hold : found ∈ held := by
        rcases List.mem_append.1 hfound with hold | hnew
        · exact hold
        · exact absurd (List.mem_singleton.1 hnew) heq
      have hne : ¬ store.block found <+: store.block text := fun hpre =>
        heq (value_eq_of_block_le hinj (h.values found hold) htext hpre)
      have hne' : store.block found ≠ store.block text := fun hblock => hne (by rw [hblock])
      rw [if_neg hne', if_neg hne, h.blocks found hold]

/-- Removing the key when it has texts forgets them. -/
theorem remove (h : HoldsKey store known key held world.tree) (platform : Platform)
    (hkey : HexId (validateKey store.sha key)) (hne : held ≠ []) :
    ∃ after, (store.kvRemove platform key).run world = .ok true after ∧
      HoldsKey store known key [] after.tree := by
  obtain ⟨after, hrun, hget⟩ := run_kvRemove platform hkey (by rw [h.dir, if_neg hne])
  have hdata : ∀ rest, after.tree.get (store.dataDir ++ rest) =
      world.tree.get (store.dataDir ++ rest) := fun rest => by
    rw [hget, if_neg (show ¬ store.keyDir key <+: _ from store.not_link_prefix_data _ _)]
  have hlinkDir : after.tree.get store.linkDir = some .dir := by
    rw [hget, if_neg, h.sound.linkDir]
    intro hpre
    have hlength := hpre.length_le
    rw [length_keyDir] at hlength
    omega
  refine ⟨after, hrun, h.sound.of_data hdata hlinkDir fun path target hlink => Or.inl ?_, by simp,
    fun above habove => ?_, ?_, fun name => ?_, by simp⟩
  · rw [hget] at hlink
    split at hlink
    · simp at hlink
    · exact hlink
  · rw [hget]
    split
    · exact Or.inl rfl
    · exact h.free above habove
  · rw [hget, if_pos (List.prefix_refl _), if_pos rfl]
  · rw [hget, if_pos (List.prefix_append _ _)]
    simp

/-- Removing the key when it has no texts throws. -/
theorem remove_nil (h : HoldsKey store known key [] world.tree) (platform : Platform)
    (hkey : HexId (validateKey store.sha key)) :
    ∃ after, (store.kvRemove platform key).run world = .error .filesystemError after ∧
      HoldsKey store known key [] after.tree := by
  obtain ⟨after, hrun, htree⟩ := run_kvRemove_missing platform h.sound hkey (by rw [h.dir, if_pos rfl])
  exact ⟨after, hrun, htree ▸ h⟩

/-- Getting the key when it has no texts. -/
theorem get_nil (h : HoldsKey store known key [] world.tree) (platform : Platform)
    (hkey : HexId (validateKey store.sha key)) :
    (store.kvGet platform key).run world = .ok (false, []) world :=
  run_kvGet_missing platform h.sound hkey (by rw [h.dir, if_pos rfl])

/-- Getting the key yields the text whose link the system lists first, cut to its size in 32
bits. -/
theorem get (h : HoldsKey store known key held world.tree) (platform : Platform)
    (hkey : HexId (validateKey store.sha key)) (hne : held ≠ []) :
    ∃ text ∈ held, ∃ after, (store.kvGet platform key).run world =
        .ok (true, [(toHex (store.sha.hash text), text.take (text.length % 2 ^ 32))]) after ∧
      HoldsKey store known key held after.tree := by
  have hnames : ∀ name, name ∈ world.tree.names (store.keyDir key) ↔
      name ∈ held.map fun text => toHex (store.sha.hash text) := by
    intro name
    rw [FileTree.mem_names, h.entries]
    simp
  obtain ⟨text, htext⟩ := List.exists_mem_of_ne_nil _ hne
  have hlisted : toHex (store.sha.hash text) ∈
      platform.listing.order (world.tree.names (store.keyDir key)) :=
    (platform.listing.perm _).mem_iff.2 ((hnames _).2 (List.mem_map_of_mem htext))
  obtain ⟨name, rest, horder⟩ := List.exists_cons_of_ne_nil (List.ne_nil_of_mem hlisted)
  have hname : name ∈ held.map fun text => toHex (store.sha.hash text) := by
    rw [← hnames, ← (platform.listing.perm _).mem_iff, horder]
    exact List.mem_cons_self
  have hlink : world.tree.get (store.keyDir key ++ [name]) =
      some (.link (store.dataDir ++ shard name)) := by
    rw [h.entries, if_pos hname]
  obtain ⟨first, hfirst, rfl⟩ := List.mem_map.1 hname
  obtain ⟨after, hrun, htree⟩ := run_kvGet platform h.sound hkey (by rw [h.dir, if_neg hne]) horder
    hlink (h.blocks first hfirst)
  exact ⟨first, hfirst, after, hrun, htree ▸ h⟩

end HoldsKey

end AnarchNet.FFStore
