import AnarchNet.FFStore.AnyKey
import AnarchNet.FFStore.OneKey

/-!
# The texts of all hashed keys

Two hashed keys with different validated forms have directories that do not contain each other, so
a call on one of them leaves what is held under the other one as it is. `HoldsAll` relates a tree to
the texts under every hashed key.
-/

namespace AnarchNet.FFStore

open FileSystem

variable {store : FFStore} {known : Set Bytes} {world : World}

/-- The hex form of a hash is not hashed again. -/
theorem validateKey_of_hexId (sha : Sha512) {key : Bytes} (h : HexId key) :
    validateKey sha key = key := by
  rw [validateKey, if_neg (by rw [h.length]; omega)]

/-- The directory of a hashed key lies in that of another one only if both have the same validated
form. -/
theorem validateKey_eq_of_keyDir_le {key other : Bytes} {rest : FilePath}
    (h : store.keyDir key <+: store.keyDir other ++ rest) :
    validateKey store.sha key = validateKey store.sha other := by
  rw [keyDir, keyDir, List.append_assoc, List.prefix_append_right_inj] at h
  exact id_eq_of_shard_le
    (List.prefix_of_prefix_length_le h (List.prefix_append _ _) (by simp [shard]))

/-- Keys with the same validated form have the same directory. -/
theorem keyDir_eq_of_validateKey {key other : Bytes}
    (h : validateKey store.sha key = validateKey store.sha other) :
    store.keyDir key = store.keyDir other := by
  rw [keyDir, keyDir, h]

namespace HoldsKey

variable {key other : Bytes} {held : List Bytes}

/-- What is held depends on the validated form of the key. -/
theorem congr {tree : FileTree} (h : HoldsKey store known key held tree)
    (heq : validateKey store.sha key = validateKey store.sha other) :
    HoldsKey store known other held tree := by
  have hdir := keyDir_eq_of_validateKey heq
  exact ⟨h.sound, h.values, hdir ▸ h.free, hdir ▸ h.dir, hdir ▸ h.entries, h.blocks⟩

/-- Putting a text under another key leaves the texts of a key alone. -/
theorem of_linked {text : Bytes} {before middle after : FileTree}
    (h : HoldsKey store known other held before) (hinj : Set.InjOn store.sha.hash known)
    (htext : text ∈ known) (hsound : Sound store after)
    (hstored : Stored (store.block text) text before middle)
    (hlinked : Linked store key text middle after)
    (hne : validateKey store.sha other ≠ validateKey store.sha key) :
    HoldsKey store known other held after := by
  have hnot : ∀ rest, ¬ store.keyDir other ++ rest <+: store.keyDir key := fun rest hpre => by
    have hle : store.keyDir other <+: store.keyDir key ++ [] := by
      rw [List.append_nil]
      exact (List.prefix_append _ rest).trans hpre
    exact hne (validateKey_eq_of_keyDir_le hle)
  have hentry : ∀ rest, store.keyDir other ++ rest ≠ store.entry key text := fun rest heq =>
    hne (validateKey_eq_of_keyDir_le (heq ▸ List.prefix_append _ rest))
  have hsame : ∀ rest, after.get (store.keyDir other ++ rest) =
      before.get (store.keyDir other ++ rest) := by
    intro rest
    rw [hlinked, if_neg (hentry rest), if_neg (hnot rest), keyDir, List.append_assoc,
      get_link_of_stored hstored]
  refine ⟨hsound, h.values, fun above habove => ?_, ?_, fun name => ?_, fun found hfound => ?_⟩
  · have hnot : above ≠ store.entry key text := by
      rintro rfl
      have hlength := habove.length_le
      simp only [entry, List.length_append, length_keyDir, List.length_singleton] at hlength
      omega
    by_cases hpre : above <+: store.keyDir key
    · exact Or.inr (by rw [hlinked, if_neg hnot, if_pos hpre])
    · rcases prefix_append_cases habove with ⟨tail, htail⟩ | ⟨rest, rfl, -⟩
      · exact Or.inr (FileTree.get_dir_of_append (htail ▸ hsound.linkDir))
      · rw [hlinked, if_neg hnot, if_neg hpre, get_link_of_stored hstored]
        exact h.free _ habove
  · have hdir := hsame []
    rw [List.append_nil] at hdir
    rw [hdir, h.dir]
  · rw [hsame, h.entries]
  · rw [block, hlinked.get_data, ← block, hstored]
    by_cases heq : found = text
    · rw [if_pos (by rw [heq]), heq]
    · have hne : ¬ store.block found <+: store.block text := fun hpre =>
        heq (value_eq_of_block_le hinj (h.values found hfound) htext hpre)
      have hne' : store.block found ≠ store.block text := fun hblock => hne (by rw [hblock])
      rw [if_neg hne', if_neg hne, h.blocks found hfound]

/-- Removing another key leaves the texts of a key alone. -/
theorem of_removed {before after : FileTree} (h : HoldsKey store known other held before)
    (hsound : Sound store after)
    (hget : ∀ path, after.get path =
      if store.keyDir key <+: path then none else before.get path)
    (hne : validateKey store.sha other ≠ validateKey store.sha key) :
    HoldsKey store known other held after := by
  have hsame : ∀ rest, after.get (store.keyDir other ++ rest) =
      before.get (store.keyDir other ++ rest) := fun rest => by
    rw [hget, if_neg fun hpre => hne (validateKey_eq_of_keyDir_le hpre).symm]
  refine ⟨hsound, h.values, fun above habove => ?_, ?_, fun name => ?_, fun found hfound => ?_⟩
  · rw [hget]
    split
    · exact Or.inl rfl
    · exact h.free above habove
  · have hdir := hsame []
    rw [List.append_nil] at hdir
    rw [hdir, h.dir]
  · rw [hsame, h.entries]
  · rw [hget, if_neg (show ¬ store.keyDir key <+: store.block found from
      store.not_link_prefix_data _ _), h.blocks found hfound]

/-- The texts stored under a key are those that are held. -/
theorem exists_entry_iff {tree : FileTree} (h : HoldsKey store known key held tree)
    (text : Bytes) :
    (∃ name target, tree.get (store.keyDir key ++ [name]) = some (.link target) ∧
      tree.get target = some (.file text)) ↔ text ∈ held := by
  constructor
  · rintro ⟨name, target, hlink, hfile⟩
    rw [h.entries] at hlink
    split at hlink
    · rename_i hname
      obtain ⟨found, hfound, rfl⟩ := List.mem_map.1 hname
      rw [Option.some.injEq, Node.link.injEq] at hlink
      have hblock := h.blocks found hfound
      rw [block, hlink, hfile, Option.some.injEq, Node.file.injEq] at hblock
      exact hblock ▸ hfound
    · cases hlink
  · intro htext
    refine ⟨toHex (store.sha.hash text), store.block text, ?_, h.blocks text htext⟩
    rw [h.entries, if_pos (List.mem_map_of_mem htext)]
    rfl

end HoldsKey

/-- The tree holds these texts under every hashed key, found by the validated form of the key. -/
def HoldsAll (store : FFStore) (known : Set Bytes) (texts : Bytes → List Bytes)
    (tree : FileTree) : Prop :=
  ∀ key, HexId (validateKey store.sha key) →
    HoldsKey store known key (texts (validateKey store.sha key)) tree

namespace HoldsAll

variable {texts : Bytes → List Bytes} {key : Bytes}

/-- The empty store holds nothing under any key. -/
theorem initial {tree : FileTree} (h : Initial store tree) (known : Set Bytes) :
    HoldsAll store known (fun _ => []) tree := fun key _ => h.holdsKey known key

/-- A text put under a key joins the texts of the key, and those of the others stay. -/
theorem put (h : HoldsAll store known texts world.tree) (hinj : Set.InjOn store.sha.hash known)
    (hkey : HexId (validateKey store.sha key)) {text : Bytes} (htext : text ∈ known) :
    ∃ after, (store.kvPut key text).run world = .ok true after ∧
      HoldsAll store known (Function.update texts (validateKey store.sha key)
        (texts (validateKey store.sha key) ++ [text])) after.tree := by
  have hold := h key hkey
  have hslot : world.tree.get (store.entry key text) = none ∨
      world.tree.get (store.entry key text) = some (.link (store.block text)) := by
    rw [entry, hold.entries]
    split
    · exact Or.inr rfl
    · exact Or.inl rfl
  obtain ⟨middle, after, hrun, hsound, hstored, hlinked⟩ :=
    run_kvPut hold.sound hkey hold.free hslot
  obtain ⟨last, hlast, hheld⟩ := hold.put hinj hkey htext
  rw [hrun, EStateM.Result.ok.injEq] at hlast
  refine ⟨after, hrun, fun other hother => ?_⟩
  by_cases heq : validateKey store.sha other = validateKey store.sha key
  · rw [heq, Function.update_self]
    exact hlast.2 ▸ hheld.congr heq.symm
  · rw [Function.update_of_ne heq]
    exact (h other hother).of_linked hinj htext hsound hstored hlinked heq

/-- Removing a key that has texts forgets them, and those of the others stay. -/
theorem remove (h : HoldsAll store known texts world.tree) (platform : Platform)
    (hkey : HexId (validateKey store.sha key)) (hne : texts (validateKey store.sha key) ≠ []) :
    ∃ after, (store.kvRemove platform key).run world = .ok true after ∧
      HoldsAll store known (Function.update texts (validateKey store.sha key) []) after.tree := by
  have hold := h key hkey
  obtain ⟨after, hrun, hget⟩ := run_kvRemove platform hkey (by rw [hold.dir, if_neg hne])
  obtain ⟨last, hlast, hheld⟩ := hold.remove platform hkey hne
  rw [hrun, EStateM.Result.ok.injEq] at hlast
  refine ⟨after, hrun, fun other hother => ?_⟩
  by_cases heq : validateKey store.sha other = validateKey store.sha key
  · rw [heq, Function.update_self]
    exact hlast.2 ▸ hheld.congr heq.symm
  · rw [Function.update_of_ne heq]
    exact (h other hother).of_removed (hlast.2 ▸ hheld.sound) hget heq

/-- Getting a key that has texts yields one of them, cut to its size in 32 bits. -/
theorem get (h : HoldsAll store known texts world.tree) (platform : Platform)
    (hkey : HexId (validateKey store.sha key)) (hne : texts (validateKey store.sha key) ≠ []) :
    ∃ text ∈ texts (validateKey store.sha key), ∃ after, (store.kvGet platform key).run world =
        .ok (true, [(toHex (store.sha.hash text), text.take (text.length % 2 ^ 32))]) after ∧
      after.tree = world.tree := by
  obtain ⟨text, htext, after, hrun, -⟩ := (h key hkey).get platform hkey hne
  obtain ⟨last, htree, hcases⟩ := store.run_kvGet_cases platform key world
  refine ⟨text, htext, after, hrun, ?_⟩
  have hstate : ((store.kvGet platform key).run world).state = last := by
    rcases hcases with hlast | hlast | ⟨name, found, -, hlast⟩
    · rw [hlast, EStateM.Result.state_ok]
    · rw [hlast, ← preserves_flowed (R := Eq) platform last]
    · rw [hlast, EStateM.Result.state_ok]
  rw [hrun, EStateM.Result.state_ok] at hstate
  exact hstate ▸ htree

end HoldsAll

end AnarchNet.FFStore
