import AnarchNet.FFStore.AnyKey
import AnarchNet.Rpc.Answers

/-!
# Putting a value and getting it back

The store keeps the pairs that it finds for a key under the names of the links, and the handler
`kv_get` looks in them for the key of its request. `kv_get_after_put_iff` says for which keys and
values the client then reads what it has put: the two agree only where the key is the hash of the
value.
-/

namespace AnarchNet

open FileSystem Json EStateM Rpc

/-- The request `kv.put` with this key and this value. -/
structure PutsValue (base64 : Base64) (request : Value) (key value : Bytes) : Prop where
  json : ∃ params, IsCall request params ∧ params.lookup (ascii "key") = some (.str key) ∧
    params.lookup (ascii "value") = some (.str (base64.encode value))

/-- The request `kv.get` with this key. -/
structure GetsKey (request : Value) (key : Bytes) : Prop where
  json : ∃ params, IsCall request params ∧ params.lookup (ascii "key") = some (.str key)

/-- The answer is a success whose content decodes to this value. -/
def ReadsBack (base64 : Base64) (answer : Bool × Value) (value : Bytes) : Prop :=
  answer.1 = true ∧ ∃ result text, answer.2.field (ascii "result") = some result ∧
    result.field (ascii "content") = some (.str text) ∧ base64.decode text = value

section Handlers

variable {store : FFStore} {platform : Platform} {base64 : Base64} {request : Value}
  {key value : Bytes} {world after : World}

/-- The data of a response. -/
theorem Rpc.Response.field_result (response : Response) :
    response.json.field (ascii "result") = some (.obj response.data) := by
  have hjsonrpc : (ascii "result" == ascii "jsonrpc") = false := by decide
  simp [Response.json, Value.field, Value.getObj, List.lookup_cons, hjsonrpc]

/-- The handler reports success only if the store put the value. -/
theorem PutsValue.run_store (h : PutsValue base64 request key value) {response : Value}
    (hrun : (AnStore.kvPut [store.plugin platform] base64 request).run world =
      .ok (true, response) after) : (store.kvPut key value).run world = .ok true after := by
  obtain ⟨params, hcall, hkey, hvalue⟩ := h.json
  obtain ⟨id, hsucceed⟩ := hcall.run_succeed
  have hrules : ∀ rule ∈ [(ascii "key", ValueType.strType), (ascii "value", .strType)],
      ((params.lookup rule.1).getD .null).type = rule.2 := by
    simp [hkey, hvalue, Value.type]
  simp only [AnStore.kvPut, run_bind, hcall.run_valid world hrules, if_true,
    hcall.run_decodeBase64 hvalue, hcall.run_paramStr hkey, ModuleManager.kvPut_singleton,
    FFStore.plugin] at hrun
  cases hput : (store.kvPut key value).run world with
  | error fault last => simp [hput] at hrun
  | ok stored last =>
      simp only [hput] at hrun
      cases stored with
      | false => exact absurd (returns_fail request (by decide) _ _ _ hrun).1 (by simp)
      | true =>
          simp only [if_true, hsucceed, Result.ok.injEq, Prod.mk.injEq, true_and] at hrun
          rw [hrun.2]

/-- What the client reads is looked up in what the store found. -/
theorem GetsKey.readsBack_iff (h : GetsKey request key) :
    (∃ answer last, (AnStore.kvGet [store.plugin platform] base64 request).run world =
        .ok answer last ∧ ReadsBack base64 answer value) ↔
      ∃ result last, (store.kvGet platform key).run world = .ok (true, result) last ∧
        AnStore.resultAt result key = value := by
  obtain ⟨params, hcall, hkey⟩ := h.json
  obtain ⟨id, hsucceed⟩ := hcall.run_succeed
  have hrules : ∀ rule ∈ [(ascii "key", ValueType.strType)],
      ((params.lookup rule.1).getD .null).type = rule.2 := by
    simp [hkey, Value.type]
  simp only [AnStore.kvGet, run_bind, hcall.run_valid world hrules, if_true,
    hcall.run_paramStr hkey, ModuleManager.kvGet_singleton, FFStore.plugin]
  cases hget : (store.kvGet platform key).run world with
  | error fault last => simp
  | ok found last =>
      obtain ⟨found, result⟩ := found
      cases found with
      | false =>
          simp only [Bool.false_eq_true, if_false]
          constructor
          · rintro ⟨answer, last, hrun, htrue, -⟩
            have hfail := (returns_fail request (by decide) _ _ _ hrun).1
            simp [htrue] at hfail
          · rintro ⟨result, last, hrun, -⟩
            simp at hrun
      | true =>
          simp only [if_true, hsucceed]
          constructor
          · rintro ⟨answer, last, hrun, -, data, text, hdata, htext, hdecode⟩
            simp only [Result.ok.injEq] at hrun
            obtain ⟨rfl, rfl⟩ := hrun
            simp only [Response.field_result, Option.some.injEq] at hdata
            subst hdata
            refine ⟨result, last, rfl, ?_⟩
            simp only [Value.field, Value.getObj, Option.map_some, List.lookup_cons, beq_self_eq_true,
              Option.getD_some, Option.some.injEq, Value.str.injEq] at htext
            rw [← hdecode, ← htext, base64.decode_encode]
          · rintro ⟨result', last', hrun, rfl⟩
            simp only [Result.ok.injEq, Prod.mk.injEq, true_and] at hrun
            obtain ⟨rfl, rfl⟩ := hrun
            refine ⟨_, _, rfl, rfl, _, base64.encode (AnStore.resultAt result key),
              Response.field_result _, ?_, base64.decode_encode _⟩
            simp [Value.field, Value.getObj]

end Handlers

namespace FFStore

variable {store : FFStore} {key value : Bytes} {tree : FileTree} {world after : World}

/-- A tree in which a value was put under a key, and nothing else was stored: all links are of the
value, and no other file is named like the key. -/
structure HoldsOnly (store : FFStore) (key value : Bytes) (tree : FileTree) : Prop where
  links : ∀ path target, tree.get path = some (.link target) →
    target = store.block value ∧ ∃ dir, path = dir ++ [store.linkName value]
  files : ∀ dir content, tree.get (dir ++ [key]) = some (.file content) →
    dir ++ [key] = store.block value
  block : tree.get (store.block value) = some (.file value)

/-- The links of such a tree lead to its file. -/
theorem HoldsOnly.linksToFiles (h : HoldsOnly store key value tree) : tree.LinksToFiles := by
  intro path target hlink
  obtain ⟨rfl, -⟩ := h.links path target hlink
  exact ⟨(store.validPath_block value).plain, value, h.block⟩

/-- What putting a value on the empty store did to the nodes of the tree. -/
theorem exists_of_kvPut (hinitial : Initial store world.tree)
    (hput : (store.kvPut key value).run world = .ok true after) :
    ∃ middle, Stored (store.block value) value world.tree middle.tree ∧
      LinkedAlong store key value middle (.ok true after) := by
  obtain ⟨middle, -, hstored, hsound, hrun⟩ := run_kvPut_eq key value hinitial.sound
  have hlinked := linkedAlong_putLink store key value hsound.linksToFiles
  rw [← hrun, hput] at hlinked
  exact ⟨middle, hstored, hlinked⟩

/-- Putting a value where nothing is stored yet. -/
theorem holdsOnly_of_kvPut (hinitial : Initial store world.tree)
    (hname : ∀ dir content, world.tree.get (dir ++ [key]) ≠ some (.file content))
    (hput : (store.kvPut key value).run world = .ok true after) :
    HoldsOnly store key value after.tree := by
  obtain ⟨middle, hstored, hlinked⟩ := exists_of_kvPut hinitial hput
  refine ⟨fun path target hlink => ?_, fun dir content hfile => ?_,
    hlinked.grows.get_of_some hstored.get_file⟩
  · rcases hlinked.grows.get path with hold | ⟨-, node, hnode, ⟨rfl, -⟩ | ⟨rfl, -, hpath⟩⟩
    · rw [show after.tree.get path = middle.tree.get path from hold] at hlink
      exact absurd (hstored.get_link hlink) (hinitial.noLinks path target)
    · rw [show after.tree.get path = _ from hnode] at hlink
      simp at hlink
    · rw [show after.tree.get path = _ from hnode, Option.some.injEq, Node.link.injEq] at hlink
      exact ⟨hlink.symm, _, hpath⟩
  · rcases hlinked.grows.get (dir ++ [key]) with hold | ⟨-, node, hnode, ⟨rfl, -⟩ | ⟨rfl, -, -⟩⟩
    · rw [show after.tree.get _ = middle.tree.get (dir ++ [key]) from hold, hstored] at hfile
      by_contra hne
      rw [if_neg hne] at hfile
      split at hfile
      · simp at hfile
      · exact hname dir content hfile
    · rw [show after.tree.get _ = _ from hnode] at hfile
      simp at hfile
    · rw [show after.tree.get _ = _ from hnode] at hfile
      simp at hfile

/-- The last component of a block is no key of the store's own directories. -/
theorem ne_block (store : FFStore) (key value : Bytes) :
    normal [] (store.place key) ++ [key] ≠ store.block value := by
  intro heq
  have hkey : key = (store.linkName value).drop 4 := by
    rw [block, shard_eq_snoc, ← List.append_assoc] at heq
    simpa using (List.append_inj' heq rfl).2
  have hlength := (store.sha.hexId value).length
  have hshort : key.length < 128 := by
    rw [hkey, List.length_drop, hlength]
    decide
  have hhex := hexId_validateKey store.sha hshort
  rw [place_eq_keyDir hhex, normal_of_plain (validPath_keyDir hhex).plain, List.nil_append, keyDir,
    List.append_assoc] at heq
  exact store.link_ne_data _ _ heq

/-- An entry of a key that has the key's own name is the link of the value. -/
theorem HoldsOnly.eq_of_held (h : HoldsOnly store key value tree) {text : Bytes}
    (hheld : Held store tree key key text) :
    key = store.linkName value ∧ text = value.take (value.length % 2 ^ 32) := by
  obtain ⟨dir, content, hdir, hname, ⟨file, hentry, hfile⟩, rfl⟩ := hheld
  have hnode := FileTree.mem_names.1 hname
  have hvalid : ValidName key := FileTree.get_valid hnode
  have hget : tree.get dir = some .dir := FileTree.get_parent hnode
  rw [entry_path store key hvalid.2.1 hvalid.2.2.1] at hentry
  split at hentry
  · rw [hdir, Option.some.injEq] at hentry
    rw [← hentry, hget] at hfile
    simp at hfile
  · have hnormal : normal [] (store.place key ++ [key]) = normal [] (store.place key) ++ [key] := by
      rw [normal_append, normal_cons, normal_nil, enter_of_proper hvalid.1]
    rcases FileTree.resolve_cases h.linksToFiles hentry with ⟨hpass, hreached⟩ |
      ⟨front, name, other, -, -, -, -, hreached | hlink⟩
    · rw [hreached, hpass.get_normal] at hfile
      simp at hfile
    · rw [hreached, hnormal] at hfile
      exact absurd (h.files _ _ hfile) (ne_block store key value)
    · obtain ⟨rfl, front, hfront⟩ := h.links _ _ hlink
      rw [hnormal] at hfront
      rw [h.block, Option.some.injEq, Node.file.injEq] at hfile
      exact ⟨by simpa using (List.append_inj' hfront rfl).2, by rw [hfile]⟩

/-- The path of a key stays in the link directory, and does not pass below the place to which it
leads. Behind a zero byte nothing would be linked. -/
structure Straight (store : FFStore) (key : Bytes) : Prop where
  zero : (0 : UInt8) ∉ validateKey store.sha key
  inside : store.linkDir <+: normal [] (store.place key)
  stages : ∀ stage, stage <+: store.place key → normal [] (store.place key) <+: normal [] stage →
    normal [] stage = normal [] (store.place key)

/-- A hashed key is straight. -/
theorem straight_of_hexId (h : HexId (validateKey store.sha key)) : Straight store key := by
  have hplain := (validPath_keyDir h).plain
  refine ⟨h.not_mem (by decide), ?_, fun stage hstage hpre => ?_⟩
  · rw [place_eq_keyDir h, normal_of_plain hplain, List.nil_append]
    exact List.prefix_append _ _
  · rw [place_eq_keyDir h] at hstage hpre ⊢
    have hplain' : Plain stage := fun name hname => hplain name (hstage.subset hname)
    rw [normal_of_plain hplain, normal_of_plain hplain', List.nil_append, List.nil_append] at hpre ⊢
    exact hstage.eq_of_length_le hpre.length_le

/-- A value that was put under a straight key on the empty store is the only entry of the key. -/
theorem Straight.run_kvGet (h : Straight store key) (platform : Platform)
    (hinitial : Initial store world.tree)
    (hput : (store.kvPut key value).run world = .ok true after) :
    ∃ last, (store.kvGet platform key).run after =
      .ok (true, [(store.linkName value, value.take (value.length % 2 ^ 32))]) last := by
  obtain ⟨middle, hstored, hlinked⟩ := exists_of_kvPut hinitial hput
  have hblock : after.tree.get (store.block value) = some (.file value) :=
    hlinked.grows.get_of_some hstored.get_file
  obtain ⟨hpass, hentry⟩ := hlinked.leads after rfl h.zero
  have hhex := store.sha.hexId value
  -- the only entry that can be new is the link
  have hnew : ∀ name, after.tree.get (normal [] (store.place key) ++ [name]) ≠ none →
      name = store.linkName value ∧ after.tree.get (normal [] (store.place key) ++ [name]) =
        some (.link (store.block value)) := by
    intro name hname
    rcases hlinked.grows.get (normal [] (store.place key) ++ [name]) with
      hold | ⟨-, node, hnode, ⟨rfl, stage, hstage, heq⟩ | ⟨rfl, -, heq⟩⟩
    · rw [show after.tree.get _ = _ from hold] at hname
      obtain ⟨rest, hrest⟩ := h.inside
      rw [← hrest, List.append_assoc, get_link_of_stored hstored,
        hinitial.noEntries _ (by simp)] at hname
      exact absurd rfl hname
    · have hbelow := h.stages stage hstage (heq ▸ List.prefix_append _ _)
      rw [← heq] at hbelow
      simp at hbelow
    · exact ⟨by simpa using (List.append_inj' heq rfl).2, hnode⟩
  obtain ⟨-, hlink⟩ := hnew _ hentry
  obtain ⟨name, rest, horder⟩ := List.exists_cons_of_ne_nil (List.ne_nil_of_mem
    ((platform.listing.perm _).mem_iff.2 (FileTree.mem_names.2 hentry)))
  obtain rfl : name = store.linkName value := by
    refine (hnew name (FileTree.mem_names.1 ((platform.listing.perm _).mem_iff.1 ?_))).1
    rw [horder]
    exact List.mem_cons_self
  obtain ⟨last, hrun, -⟩ := run_kvGet_first platform hpass h.zero horder
    (FileTree.resolve_snoc_link hpass hhex.validName.1 hlink (store.validPath_block value).plain
      hblock) hblock
  exact ⟨last, hrun⟩

/-- On the fresh store there is no file. -/
theorem get_fresh_ne_file (store : FFStore) (path : FilePath) (content : Bytes) :
    store.fresh.tree.get path ≠ some (.file content) := by
  rw [get_fresh]
  split <;> simp

end FFStore

section RoundTrip

variable {store : FFStore} {platform : Platform} {base64 : Base64} {putRoot getRoot : Value}
  {key value : Bytes} {world middle : World} {response : Value}

/-- A result map with one pair. -/
theorem resultAt_singleton (key name text : Bytes) :
    AnStore.resultAt [(name, text)] key = if key = name then text else [] := by
  rw [AnStore.resultAt, lookup_cons_eq_ite]
  split <;> rfl

/-- A value that is not the whole of itself is too long. -/
theorem length_lt_of_take_eq {value : Bytes} (h : value = value.take (value.length % 2 ^ 32)) :
    value.length < 2 ^ 32 := by
  have hlength := congrArg List.length h
  rw [List.length_take] at hlength
  omega

/-- What is looked up for the key after a value was put on the empty store. -/
theorem FFStore.resultAt_eq_iff (hinitial : FFStore.Initial store world.tree)
    (hname : ∀ dir content, world.tree.get (dir ++ [key]) ≠ some (.file content))
    (hput : (store.kvPut key value).run world = .ok true middle) :
    (∃ result last, (store.kvGet platform key).run middle = .ok (true, result) last ∧
        AnStore.resultAt result key = value) ↔
      (key = toHex (store.sha.hash value) ∧ value.length < 2 ^ 32) ∨
        (value = [] ∧ FFStore.Finds store platform middle.tree key) := by
  have honly := FFStore.holdsOnly_of_kvPut hinitial hname hput
  constructor
  · rintro ⟨result, last, hrun, hvalue⟩
    have hfinds := (store.run_kvGet_true_iff platform key middle).1 ⟨result, last, hrun⟩
    obtain ⟨after, -, hfail | hflow | ⟨name, text, hheld, hrun'⟩⟩ :=
      store.run_kvGet_cases platform key middle
    · rw [hrun] at hfail
      simp at hfail
    · rw [hrun] at hflow
      rw [(FFStore.flowed_eq_ok hflow.symm).2] at hvalue
      exact Or.inr ⟨hvalue.symm, hfinds⟩
    · rw [hrun] at hrun'
      simp only [Result.ok.injEq, Prod.mk.injEq, true_and] at hrun'
      rw [hrun'.1, resultAt_singleton] at hvalue
      split at hvalue
      · rename_i heq
        subst heq
        obtain ⟨hkey, htext⟩ := honly.eq_of_held hheld
        rw [hvalue] at htext
        exact Or.inl ⟨hkey, length_lt_of_take_eq htext⟩
      · exact Or.inr ⟨hvalue.symm, hfinds⟩
  · rintro (⟨hkey, hlength⟩ | ⟨rfl, hfinds⟩)
    · have hhex : HexId (validateKey store.sha key) := by
        have hid := store.sha.hexId value
        rw [validateKey, if_neg (by rw [hkey, hid.length]; decide), hkey]
        exact hid
      obtain ⟨last, hrun⟩ :=
        (FFStore.straight_of_hexId hhex).run_kvGet platform hinitial hput
      refine ⟨_, last, hrun, ?_⟩
      rw [resultAt_singleton, if_pos hkey, Nat.mod_eq_of_lt hlength, List.take_length]
    · obtain ⟨result, last, hrun⟩ := (store.run_kvGet_true_iff platform key middle).2 hfinds
      refine ⟨result, last, hrun, ?_⟩
      obtain ⟨after, -, hfail | hflow | ⟨name, text, hheld, hrun'⟩⟩ :=
        store.run_kvGet_cases platform key middle
      · rw [hrun] at hfail
        simp at hfail
      · rw [hrun] at hflow
        rw [(FFStore.flowed_eq_ok hflow.symm).2]
        rfl
      · rw [hrun] at hrun'
        simp only [Result.ok.injEq, Prod.mk.injEq, true_and] at hrun'
        rw [hrun'.1, resultAt_singleton]
        split
        · rename_i heq
          subst heq
          simpa using (honly.eq_of_held hheld).2
        · rfl

/-- On the empty store, a value that `kv_put` took is what `kv_get` then sends for the key exactly
if the key is the hash of the value and the value is not too long, or the value is empty and the
system lists first, where the key leads, an entry that leads to a file. No file outside the store
may be named like the key, which a key with `..` could read. -/
theorem kv_get_after_put_iff (hputs : PutsValue base64 putRoot key value)
    (hgets : GetsKey getRoot key) (hinitial : FFStore.Initial store world.tree)
    (hname : ∀ dir content, world.tree.get (dir ++ [key]) ≠ some (.file content))
    (hrun : (AnStore.kvPut [store.plugin platform] base64 putRoot).run world =
      .ok (true, response) middle) :
    (∃ answer last, (AnStore.kvGet [store.plugin platform] base64 getRoot).run middle =
        .ok answer last ∧ ReadsBack base64 answer value) ↔
      (key = toHex (store.sha.hash value) ∧ value.length < 2 ^ 32) ∨
        (value = [] ∧ FFStore.Finds store platform middle.tree key) := by
  rw [hgets.readsBack_iff]
  exact FFStore.resultAt_eq_iff hinitial hname (hputs.run_store hrun)

/-- Under a straight key, hashed ones among them, the empty value is found. -/
theorem FFStore.Straight.finds (h : FFStore.Straight store key)
    (hinitial : FFStore.Initial store world.tree)
    (hput : (store.kvPut key value).run world = .ok true middle) :
    FFStore.Finds store platform middle.tree key := by
  obtain ⟨last, hrun⟩ := h.run_kvGet platform hinitial hput
  exact (store.run_kvGet_true_iff platform key middle).1 ⟨_, last, hrun⟩

end RoundTrip

/-- The request `kv.put` with a key and a value. -/
def putCall (base64 : Base64) (key value : Bytes) : Value :=
  .obj [(ascii "jsonrpc", .str (ascii "2.0")), (ascii "id", .int 1),
    (ascii "method", .str (ascii "kv.put")),
    (ascii "params", .obj [(ascii "key", .str key), (ascii "value", .str (base64.encode value))])]

/-- The request `kv.get` with a key. -/
def getCall (key : Bytes) : Value :=
  .obj [(ascii "jsonrpc", .str (ascii "2.0")), (ascii "id", .int 1),
    (ascii "method", .str (ascii "kv.get")), (ascii "params", .obj [(ascii "key", .str key)])]

/-- The request carries its key and its value. -/
theorem putsValue_putCall (base64 : Base64) (key value : Bytes) :
    PutsValue base64 (putCall base64 key value) key value :=
  ⟨⟨_, ⟨_, _, rfl, rfl, rfl, rfl, by decide, rfl⟩, rfl, rfl⟩⟩

/-- The request carries its key. -/
theorem getsKey_getCall (key : Bytes) : GetsKey (getCall key) key :=
  ⟨⟨_, ⟨_, _, rfl, rfl, rfl, rfl, by decide, rfl⟩, rfl⟩⟩

/-- The handler takes the letter `a` under a key. -/
def takesLetter (key : Bytes) : Storage Bool := do
  let (stored, _) ← AnStore.kvPut [FFStore.letterStore.plugin FFStore.plainPlatform] letterCoder
    (putCall letterCoder key [97])
  return stored

/-- What `takesLetter` says of the handler. -/
theorem exists_of_takesLetter {key : Bytes}
    (h : ((takesLetter key).run FFStore.letterStore.fresh).isTrue = true) :
    ∃ response middle, (AnStore.kvPut [FFStore.letterStore.plugin FFStore.plainPlatform] letterCoder
      (putCall letterCoder key [97])).run FFStore.letterStore.fresh =
        .ok (true, response) middle := by
  obtain ⟨last, hlast⟩ := Result.exists_of_isTrue h
  obtain ⟨⟨stored, response⟩, middle, hrun, hpure⟩ := run_bind_eq_ok hlast
  simp only [run_pure, Result.ok.injEq] at hpure
  exact ⟨response, middle, by rw [hrun, hpure.1]⟩

/-- The letter `a` is read back under its hash. -/
theorem kv_get_after_put_letter :
    ∃ response middle, (AnStore.kvPut [FFStore.letterStore.plugin FFStore.plainPlatform] letterCoder
        (putCall letterCoder (toHex (FFStore.letterStore.sha.hash [97])) [97])).run
          FFStore.letterStore.fresh = .ok (true, response) middle ∧
      ∃ answer last, (AnStore.kvGet [FFStore.letterStore.plugin FFStore.plainPlatform] letterCoder
        (getCall (toHex (FFStore.letterStore.sha.hash [97])))).run middle = .ok answer last ∧
          ReadsBack letterCoder answer [97] := by
  obtain ⟨response, middle, hrun⟩ := exists_of_takesLetter
    (show ((takesLetter (toHex (FFStore.letterStore.sha.hash [97]))).run
      FFStore.letterStore.fresh).isTrue = true by decide +kernel)
  exact ⟨response, middle, hrun, (kv_get_after_put_iff (putsValue_putCall _ _ _) (getsKey_getCall _)
    FFStore.letterStore.initial_fresh (fun _ => FFStore.letterStore.get_fresh_ne_file _) hrun).2
    (Or.inl ⟨rfl, by decide⟩)⟩

/-- The letter `a` is not read back under the key `k`. -/
theorem kv_get_loses_letter :
    ∃ response middle, (AnStore.kvPut [FFStore.letterStore.plugin FFStore.plainPlatform] letterCoder
        (putCall letterCoder [107] [97])).run FFStore.letterStore.fresh =
          .ok (true, response) middle ∧
      ¬ ∃ answer last, (AnStore.kvGet [FFStore.letterStore.plugin FFStore.plainPlatform] letterCoder
        (getCall [107])).run middle = .ok answer last ∧ ReadsBack letterCoder answer [97] := by
  obtain ⟨response, middle, hrun⟩ := exists_of_takesLetter
    (show ((takesLetter [107]).run FFStore.letterStore.fresh).isTrue = true by decide +kernel)
  refine ⟨response, middle, hrun, ?_⟩
  rw [(getsKey_getCall _).readsBack_iff, FFStore.resultAt_eq_iff
    FFStore.letterStore.initial_fresh (fun _ => FFStore.letterStore.get_fresh_ne_file _)
    ((putsValue_putCall _ _ _).run_store hrun)]
  rintro (⟨hkey, -⟩ | ⟨hnil, -⟩)
  · have hlength := congrArg List.length hkey
    rw [(FFStore.letterStore.sha.hexId [97]).length] at hlength
    simp at hlength
  · simp at hnil

end AnarchNet
