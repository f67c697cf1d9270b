import AnarchNet.FFStore.Specs
import Mathlib.Data.Set.Function

/-!
# The flat-file store as a multimap

What the store is for: a multimap from keys to the values put under them since they were last
removed. `Represents` relates a tree to such a multimap, every call on a short key keeps the
relation, and `kv_get` is compared with the multimap at the end of a run.
-/

namespace AnarchNet

open FileSystem

/-- The abstract store: the values put under each key since its last removal, oldest first. -/
abbrev Multimap := Bytes → List Bytes

namespace FFStore

/-- A call that changes the store. -/
inductive Op where
  | put (key value : Bytes)
  | remove (key : Bytes)

namespace Op

/-- The key of a call. -/
def key : Op → Bytes
  | put key _ => key
  | remove key => key

/-- The strings that a call hashes. -/
def hashed : Op → List Bytes
  | put key value => [key, value]
  | remove key => [key]

/-- A call on the multimap. -/
def apply (map : Multimap) : Op → Multimap
  | put key value => Function.update map key (map key ++ [value])
  | remove key => Function.update map key []

/-- A call on the store. -/
def call (store : FFStore) (platform : Platform) : Op → Storage Bool
  | put key value => store.kvPut key value
  | remove key => store.kvRemove platform key

end Op

/-- A call that returns or throws leaves its state behind. -/
def step (store : FFStore) (platform : Platform) (world : World) (op : Op) : World :=
  ((op.call store platform).run world).state

/-- A sequence of calls on the store. -/
def run (store : FFStore) (platform : Platform) (ops : List Op) (world : World) : World :=
  ops.foldl (store.step platform) world

/-- The multimap after a sequence of calls on the empty one. -/
def history (ops : List Op) : Multimap := ops.foldl Op.apply fun _ => []

variable {store : FFStore}

/-- The links in the directories of the keys are those of the values of the multimap, for the strings
in `known`, all of them shorter than 128 bytes where they are keys. The directory of a key without
values may be there. -/
structure Lists (store : FFStore) (known : Set Bytes) (map : Multimap) (tree : FileTree) :
    Prop where
  sound : Sound store tree
  values : ∀ key, ∀ value ∈ map key, value ∈ known
  free : ∀ id above, HexId id → above <+: shard id →
    tree.get (store.linkDir ++ above) = none ∨ tree.get (store.linkDir ++ above) = some .dir
  entries : ∀ key ∈ known, key.length < 128 → ∀ name, tree.get (store.keyDir key ++ [name]) =
    if name ∈ (map key).map (fun value => toHex (store.sha.hash value)) then
      some (.link (store.dataDir ++ shard name))
    else none
  blocks : ∀ key, ∀ value ∈ map key, tree.get (store.block value) = some (.file value)

/-- The tree holds exactly the values of the multimap, for the strings in `known`, all of them
shorter than 128 bytes where they are keys. -/
structure Represents (store : FFStore) (known : Set Bytes) (map : Multimap) (tree : FileTree) :
    Prop where
  sound : Sound store tree
  values : ∀ key, ∀ value ∈ map key, value ∈ known
  free : ∀ id above, HexId id → above <+: shard id →
    tree.get (store.linkDir ++ above) = none ∨ tree.get (store.linkDir ++ above) = some .dir
  dirs : ∀ key ∈ known, key.length < 128 →
    tree.get (store.keyDir key) = if map key = [] then none else some .dir
  entries : ∀ key ∈ known, key.length < 128 → ∀ name, tree.get (store.keyDir key ++ [name]) =
    if name ∈ (map key).map (fun value => toHex (store.sha.hash value)) then
      some (.link (store.dataDir ++ shard name))
    else none
  blocks : ∀ key, ∀ value ∈ map key, tree.get (store.block value) = some (.file value)

/-- The empty store represents the empty multimap. -/
theorem Initial.represents {tree : FileTree} (h : Initial store tree) (known : Set Bytes) :
    Represents store known (fun _ => []) tree := by
  refine ⟨h.sound, by simp, fun id above _ _ => ?_, fun key _ _ => ?_, fun key _ _ name => ?_,
    by simp⟩
  · by_cases habove : above = []
    · exact Or.inr (by rw [habove, List.append_nil, h.linkDir])
    · exact Or.inl (h.noEntries above habove)
  · rw [keyDir, h.noEntries _ (by simp [shard])]
    rfl
  · rw [keyDir, List.append_assoc, h.noEntries _ (by simp [shard])]
    rfl

/-- Without collisions, the directory of a short key lies in that of another only if the keys are
equal. -/
theorem key_eq_of_keyDir_le {known : Set Bytes} (hinj : Set.InjOn store.sha.hash known) {key other : Bytes}
    (hkey : key ∈ known) (hother : other ∈ known) (hshort : key.length < 128)
    (hshort' : other.length < 128) {rest : FilePath}
    (h : store.keyDir key <+: store.keyDir other ++ rest) : key = other := by
  rw [keyDir, keyDir, List.append_assoc, List.prefix_append_right_inj] at h
  have hpre : shard (validateKey store.sha key) <+: shard (validateKey store.sha other) :=
    List.prefix_of_prefix_length_le h (List.prefix_append _ _) (by simp [shard])
  have hvalid := id_eq_of_shard_le hpre
  rw [validateKey, validateKey, if_pos hshort, if_pos hshort'] at hvalid
  exact hinj hkey hother (toHex_injective hvalid)

/-- The directory of a key lies three levels below the link directory. -/
theorem length_keyDir (store : FFStore) (key : Bytes) :
    (store.keyDir key).length = store.linkDir.length + 3 := by
  simp [keyDir, shard]

/-- Two values with the same block are equal. -/
theorem value_eq_of_block_le {known : Set Bytes} (hinj : Set.InjOn store.sha.hash known)
    {value other : Bytes} (hvalue : value ∈ known) (hother : other ∈ known)
    (h : store.block value <+: store.block other) : value = other := by
  rw [block, block, List.prefix_append_right_inj] at h
  exact hinj hvalue hother (toHex_injective (id_eq_of_shard_le h))

/-- What is under a key after a value was put. -/
theorem mem_apply_put {map : Multimap} {key value other found : Bytes}
    (h : found ∈ Op.apply map (.put key value) other) : found ∈ map other ∨ found = value := by
  simp only [Op.apply, Function.update_apply] at h
  split at h
  · rename_i heq
    rcases List.mem_append.1 h with hold | hnew
    · exact Or.inl (heq ▸ hold)
    · exact Or.inr (List.mem_singleton.1 hnew)
  · exact Or.inl h

/-- The link directory changes at the key and at its new entry only. -/
theorem Linked.get_linkDir {before middle after : FileTree} {key value : Bytes}
    (h : Linked store key value middle after)
    (hstored : Stored (store.block value) value before middle) (rest : FilePath) :
    after.get (store.linkDir ++ rest) =
      if store.linkDir ++ rest = store.entry key value then some (.link (store.block value))
      else if store.linkDir ++ rest <+: store.keyDir key then some .dir
      else before.get (store.linkDir ++ rest) := by
  rw [h, get_link_of_stored hstored]

section Steps

variable {known : Set Bytes} {map : Multimap} {world : World}

/-- A value put under a short key joins the values of the key. -/
theorem Lists.put (h : Lists store known map world.tree)
    (hinj : Set.InjOn store.sha.hash known) {key value : Bytes} (hkey : key ∈ known)
    (hvalue : value ∈ known) (hshort : key.length < 128) :
    ∃ middle after, (store.kvPut key value).run world = .ok true after ∧
      Stored (store.block value) value world.tree middle ∧
      Linked store key value middle after.tree ∧
      Lists store known (Op.apply map (.put key value)) after.tree := by
  have hhex := hexId_validateKey store.sha hshort
  have hfree : ∀ above, above <+: store.keyDir key →
      world.tree.get above = none ∨ world.tree.get above = some .dir := by
    intro above habove
    rcases prefix_append_cases habove with ⟨tail, htail⟩ | ⟨rest, rfl, hrest⟩
    · exact Or.inr (FileTree.get_dir_of_append (htail ▸ h.sound.linkDir))
    · exact h.free _ rest hhex hrest
  have hslot : world.tree.get (store.entry key value) = none ∨
      world.tree.get (store.entry key value) = some (.link (store.block value)) := by
    rw [entry, h.entries key hkey hshort]
    split
    · exact Or.inr rfl
    · exact Or.inl rfl
  obtain ⟨middle, after, hrun, hsound, hstored, hlinked⟩ := run_kvPut h.sound hhex hfree hslot
  refine ⟨middle, after, hrun, hstored, hlinked, hsound, ?_, ?_, ?_, ?_⟩
  · intro other found hfound
    rcases mem_apply_put hfound with hold | rfl
    · exact h.values other found hold
    · exact hvalue
  · intro id above hid habove
    rw [hlinked.get_linkDir hstored, if_neg]
    · split
      · exact Or.inr rfl
      · exact h.free id above hid habove
    · intro heq
      have hlen := congrArg List.length heq
      have hle := habove.length_le
      rw [entry, List.length_append, List.length_append, length_keyDir] at hlen
      simp only [shard, List.length_cons, List.length_nil] at hlen hle
      omega
  · intro other hother hshort' name
    have hbelow : ¬ store.keyDir other ++ [name] <+: store.keyDir key := by
      intro hpre
      have hlen := hpre.length_le
      rw [List.length_append, length_keyDir, length_keyDir] at hlen
      simp at hlen
    rw [keyDir, List.append_assoc, hlinked.get_linkDir hstored, ← List.append_assoc, ← keyDir,
      if_neg hbelow, h.entries other hother hshort']
    simp only [Op.apply, Function.update_apply]
    by_cases heq : other = key
    · subst heq
      by_cases hname : name = toHex (store.sha.hash value)
      · subst hname
        simp [entry, block]
      · simp [entry, hname]
    · have hentry : store.keyDir other ++ [name] ≠ store.entry key value := fun hentry =>
        heq (key_eq_of_keyDir_le hinj hother hkey hshort' hshort
          (hentry ▸ List.prefix_append (store.keyDir other) [name]))
      rw [if_neg hentry, if_neg heq]
  · intro other found hfound
    rw [block, hlinked.get_data, ← block, hstored]
    rcases mem_apply_put hfound with hold | rfl
    · by_cases heq : found = value
      · rw [if_pos (by rw [heq]), heq]
      · have hne : ¬ store.block found <+: store.block value := fun hpre =>
          heq (value_eq_of_block_le hinj (h.values other found hold) hvalue hpre)
        have hne' : store.block found ≠ store.block value := fun hblock =>
          hne (by rw [hblock])
        rw [if_neg hne', if_neg hne, h.blocks other found hold]
    · rw [if_pos rfl]

/-- Removing a short key that has a directory succeeds and forgets its values. -/
theorem Lists.kvRemove (h : Lists store known map world.tree)
    (hinj : Set.InjOn store.sha.hash known) (platform : Platform) {key : Bytes}
    (hkey : key ∈ known) (hshort : key.length < 128)
    (hdir : world.tree.get (store.keyDir key) = some .dir) :
    ∃ after, (store.kvRemove platform key).run world = .ok true after ∧
      (∀ path, after.tree.get path =
        if store.keyDir key <+: path then none else world.tree.get path) ∧
      Lists store known (Op.apply map (.remove key)) after.tree := by
  obtain ⟨after, hrun, hget⟩ := run_kvRemove platform (hexId_validateKey store.sha hshort) hdir
  have hdata : ∀ rest, after.tree.get (store.dataDir ++ rest) =
      world.tree.get (store.dataDir ++ rest) := fun rest => by
    rw [hget, if_neg (show ¬ store.keyDir key <+: _ from store.not_link_prefix_data _ _)]
  have hold : ∀ path target, after.tree.get path = some (.link target) →
      world.tree.get path = some (.link target) := by
    intro path target hlink
    rw [hget] at hlink
    split at hlink
    · simp at hlink
    · exact hlink
  have hmem : ∀ other found, found ∈ Op.apply map (.remove key) other → found ∈ map other := by
    intro other found hfound
    simp only [Op.apply, Function.update_apply] at hfound
    split at hfound
    · simp at hfound
    · exact hfound
  refine ⟨after, hrun, hget, h.sound.of_data hdata ?_ fun path target hlink =>
      Or.inl (hold path target hlink),
    fun other found hfound => h.values other found (hmem other found hfound),
    fun id above hid habove => ?_, fun other hknown hshort' name => ?_,
    fun other found hfound => ?_⟩
  · rw [hget, if_neg, h.sound.linkDir]
    intro hpre
    have hlen := hpre.length_le
    rw [length_keyDir] at hlen
    omega
  · rw [hget]
    split
    · exact Or.inl rfl
    · exact h.free id above hid habove
  · simp only [Op.apply, Function.update_apply]
    by_cases heq : other = key
    · rw [heq, hget, if_pos (List.prefix_append _ _)]
      simp
    · rw [hget, if_neg fun hpre => heq
        (key_eq_of_keyDir_le hinj hkey hknown hshort hshort' hpre).symm, if_neg heq,
        h.entries other hknown hshort']
  · rw [block, hdata, ← block, h.blocks other found (hmem other found hfound)]

/-- The links of a tree that represents a multimap. -/
theorem Represents.lists (h : Represents store known map world.tree) :
    Lists store known map world.tree :=
  ⟨h.sound, h.values, h.free, h.entries, h.blocks⟩

/-- A value put under a short key joins the values of the key. -/
theorem Represents.put (h : Represents store known map world.tree)
    (hinj : Set.InjOn store.sha.hash known) {key value : Bytes} (hkey : key ∈ known)
    (hvalue : value ∈ known) (hshort : key.length < 128) :
    ∃ after, (store.kvPut key value).run world = .ok true after ∧
      Represents store known (Op.apply map (.put key value)) after.tree := by
  obtain ⟨middle, after, hrun, hstored, hlinked, hlists⟩ := h.lists.put hinj hkey hvalue hshort
  refine ⟨after, hrun, hlists.sound, hlists.values, hlists.free, fun other hother hshort' => ?_,
    hlists.entries, hlists.blocks⟩
  rw [keyDir, hlinked.get_linkDir hstored, ← keyDir, if_neg]
  · simp only [Op.apply, Function.update_apply]
    by_cases heq : other = key
    · rw [if_pos (heq ▸ List.prefix_refl _), if_pos heq]
      simp
    · rw [if_neg heq, if_neg, h.dirs other hother hshort']
      exact fun hpre => heq (key_eq_of_keyDir_le hinj hother hkey hshort' hshort
        (hpre.trans (List.prefix_append _ [])))
  · intro heq
    have hlen := congrArg List.length heq
    rw [entry, List.length_append, length_keyDir, length_keyDir] at hlen
    simp at hlen

/-- Removing a short key that has values succeeds and forgets them. -/
theorem Represents.kvRemove (h : Represents store known map world.tree)
    (hinj : Set.InjOn store.sha.hash known) (platform : Platform) {key : Bytes}
    (hkey : key ∈ known) (hshort : key.length < 128) (hmap : map key ≠ []) :
    ∃ after, (store.kvRemove platform key).run world = .ok true after ∧
      Represents store known (Op.apply map (.remove key)) after.tree := by
  obtain ⟨after, hrun, hget, hlists⟩ := h.lists.kvRemove hinj platform hkey hshort
    (by rw [h.dirs key hkey hshort, if_neg hmap])
  refine ⟨after, hrun, hlists.sound, hlists.values, hlists.free, fun other hknown hshort' => ?_,
    hlists.entries, hlists.blocks⟩
  simp only [Op.apply, Function.update_apply]
  by_cases heq : other = key
  · rw [heq, hget, if_pos (List.prefix_refl _)]
    simp
  · rw [hget, if_neg fun hpre => heq (key_eq_of_keyDir_le hinj hkey hknown hshort hshort'
      (hpre.trans (List.prefix_append _ []))).symm, if_neg heq, h.dirs other hknown hshort']

/-- Removing a short key forgets its values. -/
theorem Represents.remove (h : Represents store known map world.tree)
    (hinj : Set.InjOn store.sha.hash known) (platform : Platform) {key : Bytes}
    (hkey : key ∈ known) (hshort : key.length < 128) :
    Represents store known (Op.apply map (.remove key))
      (store.step platform world (.remove key)).tree := by
  by_cases hmap : map key = []
  · have hnone : world.tree.get (store.keyDir key) = none := by
      rw [h.dirs key hkey hshort, if_pos hmap]
    obtain ⟨after, hrun, htree⟩ := run_kvRemove_missing platform h.sound
      (hexId_validateKey store.sha hshort) hnone
    have hsame : Op.apply map (.remove key) = map := by
      rw [Op.apply, ← hmap, Function.update_eq_self]
    rw [step, Op.call, hrun, hsame, EStateM.Result.state_error, htree]
    exact h
  · obtain ⟨after, hrun, hafter⟩ := h.kvRemove hinj platform hkey hshort hmap
    rw [step, Op.call, hrun]
    exact hafter

/-- A call on a short key keeps the representation. -/
theorem Represents.step (h : Represents store known map world.tree)
    (hinj : Set.InjOn store.sha.hash known) (platform : Platform) {op : Op}
    (hknown : ∀ text ∈ op.hashed, text ∈ known) (hshort : op.key.length < 128) :
    Represents store known (op.apply map) (store.step platform world op).tree := by
  cases op with
  | put key value =>
      obtain ⟨after, hrun, hafter⟩ :=
        h.put hinj (hknown key (by simp [Op.hashed])) (hknown value (by simp [Op.hashed])) hshort
      rw [FFStore.step, Op.call, hrun]
      exact hafter
  | remove key => exact h.remove hinj platform (hknown key (by simp [Op.hashed])) hshort

/-- A run on short keys keeps the representation. -/
theorem Represents.run (h : Represents store known map world.tree)
    (hinj : Set.InjOn store.sha.hash known) (platform : Platform) (ops : List Op)
    (hknown : ∀ op ∈ ops, ∀ text ∈ op.hashed, text ∈ known)
    (hshort : ∀ op ∈ ops, op.key.length < 128) :
    Represents store known (ops.foldl Op.apply map) (store.run platform ops world).tree := by
  refine List.foldl_rel (r := fun map (world : World) => Represents store known map world.tree) h ?_
  intro op hop map world hrep
  exact hrep.step hinj platform (hknown op hop) (hshort op hop)

/-- Getting a short key yields the value whose link the system lists first. -/
theorem Represents.run_kvGet (h : Represents store known map world.tree) (platform : Platform)
    {key : Bytes} (hkey : key ∈ known) (hshort : key.length < 128) :
    (map key = [] ∧ (store.kvGet platform key).run world = .ok (false, []) world) ∨
    ∃ value ∈ map key, ∃ after, (store.kvGet platform key).run world =
        .ok (true, [(toHex (store.sha.hash value), value.take (value.length % 2 ^ 32))]) after ∧
      after.tree = world.tree := by
  have hhex := hexId_validateKey store.sha hshort
  by_cases hmap : map key = []
  · refine Or.inl ⟨hmap, run_kvGet_missing platform h.sound hhex ?_⟩
    rw [h.dirs key hkey hshort, if_pos hmap]
  · have hdir : world.tree.get (store.keyDir key) = some .dir := by
      rw [h.dirs key hkey hshort, if_neg hmap]
    have hnames : ∀ name, name ∈ world.tree.names (store.keyDir key) ↔
        name ∈ (map key).map fun value => toHex (store.sha.hash value) := by
      intro name
      rw [FileTree.mem_names, h.entries key hkey hshort]
      simp
    obtain ⟨value, hvalue⟩ := List.exists_mem_of_ne_nil _ hmap
    have hlisted : toHex (store.sha.hash value) ∈
        platform.listing.order (world.tree.names (store.keyDir key)) :=
      (platform.listing.perm _).mem_iff.2 ((hnames _).2 (List.mem_map_of_mem hvalue))
    obtain ⟨name, rest, horder⟩ := List.exists_cons_of_ne_nil (List.ne_nil_of_mem hlisted)
    have hname : name ∈ (map key).map fun value => toHex (store.sha.hash value) := by
      rw [← hnames, ← (platform.listing.perm _).mem_iff, horder]
      exact List.mem_cons_self
    have hlink : world.tree.get (store.keyDir key ++ [name]) =
        some (.link (store.dataDir ++ shard name)) := by
      rw [h.entries key hkey hshort, if_pos hname]
    obtain ⟨first, hfirst, rfl⟩ := List.mem_map.1 hname
    exact Or.inr ⟨first, hfirst,
      FFStore.run_kvGet platform h.sound hhex hdir horder hlink (h.blocks key first hfirst)⟩

/-- `kv_get` succeeds exactly when there are values, and then its map holds exactly their pairs. -/
def FaithfulGet (store : FFStore) (platform : Platform) (key : Bytes) (values : List Bytes)
    (world : World) : Prop :=
  ∃ found map after, (store.kvGet platform key).run world = .ok (found, map) after ∧
    (found = true ↔ values ≠ []) ∧
    (found = true → ∀ pair, pair ∈ map ↔
      ∃ value ∈ values, pair = (toHex (store.sha.hash value), value))

/-- The map holds one pair, so it is right exactly when there is one value and its size fits into
32 bits. -/
theorem Represents.faithfulGet_iff (h : Represents store known map world.tree)
    (platform : Platform) {key : Bytes} (hkey : key ∈ known) (hshort : key.length < 128) :
    FaithfulGet store platform key (map key) world ↔
      (∀ value ∈ map key, ∀ other ∈ map key, value = other) ∧
        ∀ value ∈ map key, value.length < 2 ^ 32 := by
  rcases h.run_kvGet platform hkey hshort with ⟨hmap, hrun⟩ | ⟨first, hfirst, after, hrun, -⟩
  · rw [hmap]
    exact ⟨by simp, fun _ => ⟨false, [], world, hrun, by simp, by simp⟩⟩
  constructor
  · rintro ⟨found, pairs, last, hget, hfound, hpairs⟩
    rw [hrun, EStateM.Result.ok.injEq, Prod.mk.injEq] at hget
    obtain ⟨⟨rfl, rfl⟩, rfl⟩ := hget
    have hcut : ∀ value ∈ map key, value = first.take (first.length % 2 ^ 32) := by
      intro value hvalue
      have hmem := (hpairs rfl (_, value)).2 ⟨value, hvalue, rfl⟩
      rw [List.mem_singleton, Prod.mk.injEq] at hmem
      exact hmem.2
    refine ⟨fun value hvalue other hother => ?_, fun value hvalue => ?_⟩
    · rw [hcut value hvalue, hcut other hother]
    · rw [hcut value hvalue]
      have hlt := Nat.mod_lt first.length (show 2 ^ 32 > 0 by decide)
      exact lt_of_le_of_lt (List.length_take_le _ _) hlt
  · rintro ⟨hsame, hsize⟩
    refine ⟨_, _, after, hrun, ?_, fun _ pair => ?_⟩
    · simpa using List.ne_nil_of_mem hfirst
    · rw [Nat.mod_eq_of_lt (hsize first hfirst), List.take_length, List.mem_singleton]
      constructor
      · rintro rfl
        exact ⟨first, hfirst, rfl⟩
      · rintro ⟨value, hvalue, rfl⟩
        rw [hsame value hvalue first hfirst]

end Steps

/-- After every run on short keys, `kv_get` is faithful to the history of a key exactly when at
most one value is left under it and that value is shorter than 2^32 bytes. -/
theorem kvGet_faithful_iff (store : FFStore) (platform : Platform) (ops : List Op) (world : World)
    (key : Bytes) (hinit : Initial store world.tree) (hshort : ∀ op ∈ ops, op.key.length < 128)
    (hkey : key.length < 128) (hfree : CollisionFree store.sha (key :: ops.flatMap Op.hashed)) :
    FaithfulGet store platform key (history ops key) (store.run platform ops world) ↔
      (∀ value ∈ history ops key, ∀ other ∈ history ops key, value = other) ∧
        ∀ value ∈ history ops key, value.length < 2 ^ 32 := by
  have hrep := (hinit.represents {text | text ∈ key :: ops.flatMap Op.hashed}).run
    (fun left hleft right hright => hfree left hleft right hright) platform ops
    (fun op hop text htext => List.mem_cons_of_mem _ (List.mem_flatMap.2 ⟨op, hop, htext⟩)) hshort
  exact hrep.faithfulGet_iff platform List.mem_cons_self hkey

/-- A store in the directory `/data` with the digests of the texts `k`, `a` and `b`. -/
def letterStore : FFStore :=
  initialise (.ofDigests
    [([107], digest
        0x2af8a9104b3f64ed640d8c7e298d2d480f03a3610cbc2b33474321ec59024a48
        0x592ea8545e41e09d5d1108759df48ede0054f225df39d4f0f312450e0aa9dd25),
      ([97], digest
        0x1f40fc92da241694750979ee6cf582f2d5d7d28e18335de05abc54d0560e0f53
        0x02860c652bf08d560252aa5e74210546f369fbbbce8c12cfc7957b2652fe9a75),
      ([98], digest
        0x5267768822ee624d48fce15ec5ca79cbd602cb7f4c2157a516556991f22ef8c7
        0xb5ef7b18d1ff41c59370efb0858651d44a936c11b7b144c48fe04df3c6a3e8da)])
    [[100, 97, 116, 97]] validPath_data

/-- A platform that lists directories in the order of creation. -/
def plainPlatform : Platform where
  listing := ⟨id, fun _ => List.Perm.refl _⟩
  flowOff := some false

/-- One value under the key `k` is found again. -/
theorem kvGet_faithful_one_value :
    FaithfulGet letterStore plainPlatform [107] (history [.put [107] [97]] [107])
      (letterStore.run plainPlatform [.put [107] [97]] letterStore.fresh) :=
  (kvGet_faithful_iff letterStore plainPlatform [.put [107] [97]] letterStore.fresh [107]
    letterStore.initial_fresh (by decide) (by decide) (by decide +kernel)).2
    ⟨by decide, by decide⟩

/-- Of two values under the key `k` only one is found. -/
theorem kvGet_unfaithful_two_values :
    (∀ op ∈ [Op.put [107] [97], Op.put [107] [98]], op.key.length < 128) ∧
      CollisionFree letterStore.sha [[107], [107], [97], [107], [98]] ∧
      Initial letterStore letterStore.fresh.tree ∧
      ¬ FaithfulGet letterStore plainPlatform [107]
        (history [.put [107] [97], .put [107] [98]] [107])
        (letterStore.run plainPlatform [.put [107] [97], .put [107] [98]] letterStore.fresh) := by
  have hfree : CollisionFree letterStore.sha [[107], [107], [97], [107], [98]] := by decide +kernel
  have hshort : ∀ op ∈ [Op.put [107] [97], Op.put [107] [98]], op.key.length < 128 := by decide
  refine ⟨hshort, hfree, letterStore.initial_fresh, ?_⟩
  have hrep := (letterStore.initial_fresh.represents
      {text | text ∈ [[107], [107], [97], [107], [98]]}).run
    (fun left hleft right hright => hfree left hleft right hright) plainPlatform
    [.put [107] [97], .put [107] [98]] (by decide) hshort
  have hvalues : history [.put [107] [97], .put [107] [98]] [107] = [[97], [98]] := by decide
  rw [history] at hvalues
  rw [history, hrep.faithfulGet_iff plainPlatform (by decide) (by decide), hvalues]
  decide

end FFStore

end AnarchNet
