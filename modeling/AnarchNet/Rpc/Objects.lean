import AnarchNet.Db.Hunk
import AnarchNet.Libb64
import AnarchNet.Rpc.Handlers

/-!
# Runs of object requests

The object store is for keeping, per id, the history of the contents given to it. The requests of
a run act on a map from ids to objects, and a file system that stores such a map still does so
after one more request. What a client then reads is compared with the history.
-/

namespace AnarchNet

open FileSystem Json Db

/-- One slot decides for itself. -/
@[simp] theorem resCheck_singleton (slot : Storage Bool) : resCheck [slot] = slot := by
  have h : ∀ world, (resCheck [slot]).run world = slot.run world := by
    intro world
    simp only [resCheck, EStateM.run_bind]
    cases slot.run world <;> simp
  exact funext h

namespace ModuleManager

variable (plugin : KvPlugin)

@[simp] theorem kvPut_singleton (key value : Bytes) :
    kvPut [plugin] key value = plugin.kvPut key value := resCheck_singleton _

@[simp] theorem kvRemove_singleton (key : Bytes) :
    kvRemove [plugin] key = plugin.kvRemove key := resCheck_singleton _

@[simp] theorem kvGet_singleton (key : Bytes) (result : KvResMap) :
    kvGet [plugin] key result = plugin.kvGet key := by
  have h : ∀ world, (kvGet [plugin] key result).run world = (plugin.kvGet key).run world := by
    intro world
    simp only [kvGet, EStateM.run_bind]
    cases (plugin.kvGet key).run world <;> simp
  exact funext h

end ModuleManager

/-- A request that creates or updates the object of an id: its text, and the time it is served. -/
structure CreateRequest where
  root : Value
  id : Bytes
  content : Bytes
  time : Nat

/-- The request is valid and carries this id and this content. -/
structure CreateRequest.Valid (base64 : Base64) (request : CreateRequest) : Prop where
  json : ∃ params, Rpc.IsCall request.root params ∧
    params.lookup (ascii "content") = some (.str (base64.encode request.content)) ∧
    params.lookup (ascii "id") = some (.str request.id)
  short : request.id.length < 128

/-- The objects stored under each id. -/
abbrev ObjectMap := Bytes → Option Object

namespace Daemon

variable (daemon : Daemon)

/-- The object of an id after one more request. -/
def nextObject (objects : ObjectMap) (request : CreateRequest) : Object :=
  match objects request.id with
  | none => daemon.created .new request.time request.content request.id
  | some object => daemon.updated object request.time request.content

/-- A request on the map of objects. -/
def applyRequest (objects : ObjectMap) (request : CreateRequest) : ObjectMap :=
  Function.update objects request.id (some (daemon.nextObject objects request))

/-- The content that a request changes: that of the object, or the empty text. -/
def oldContent (objects : ObjectMap) (id : Bytes) : Bytes := ((objects id).map Object.head).getD []

/-- The archive texts that a run of requests stores. -/
def storedTexts : ObjectMap → List CreateRequest → List Bytes
  | _, [] => []
  | objects, request :: rest =>
      daemon.library.save (daemon.nextObject objects request) ::
        storedTexts (daemon.applyRequest objects request) rest

/-- Serving a request leaves its state behind, whatever it answers. -/
def serve (base64 : Base64) (world : World) (request : CreateRequest) : World :=
  ((LocalStorage.createObject daemon base64 request.time request.root).run world).state

end Daemon

/-- The daemon with the flat-file store as its only plugin. -/
def FFStore.daemon (store : FFStore) (platform : Platform) (library : Library) : Daemon where
  sha := store.sha
  library := library
  plugins := [store.plugin platform]

/-- The store holds the archive text of each object of the map, and nothing else under its id. -/
structure HoldsObjects (store : FFStore) (library : Library) (known : Set Bytes)
    (objects : ObjectMap) (tree : FileTree) : Prop where
  texts : ∃ map, FFStore.Represents store known map tree ∧
    ∀ id, match objects id with
      | none => map id = []
      | some object => map id ≠ [] ∧ ∀ text ∈ map id, text = library.save object
  ids : ∀ id object, objects id = some object → object.id = id

section Steps

variable {store : FFStore} {library : Library} {known : Set Bytes} {objects : ObjectMap}
  {world : World}

/-- The empty store holds no objects. -/
theorem HoldsObjects.initial {tree : FileTree} (h : FFStore.Initial store tree) :
    HoldsObjects store library known (fun _ => none) tree :=
  ⟨⟨fun _ => [], h.represents known, fun _ => rfl⟩, by simp⟩

/-- An id without an object is not found. -/
theorem HoldsObjects.run_getObjectHead_none (h : HoldsObjects store library known objects world.tree)
    (platform : Platform) {id : Bytes} (hknown : id ∈ known) (hshort : id.length < 128)
    (hobject : objects id = none) (target : Object) :
    ((store.daemon platform library).getObjectHead id target).run world =
      .ok (false, { target with id := id }) world := by
  obtain ⟨map, hrep, hmap⟩ := h.texts
  have hnone := hmap id
  rw [hobject] at hnone
  have hget : (store.kvGet platform id).run world = .ok (false, []) world := by
    rcases hrep.run_kvGet platform hknown hshort with ⟨-, hrun⟩ | ⟨text, htext, -⟩
    · exact hrun
    · rw [show map id = [] from hnone] at htext
      simp at htext
  simp [Daemon.getObjectHead, FFStore.daemon, FFStore.plugin, hget]

/-- What is loaded for an id is the text of its object, cut to its size in 32 bits. -/
theorem HoldsObjects.run_getObjectHead (h : HoldsObjects store library known objects world.tree)
    (platform : Platform) {id : Bytes} (hknown : id ∈ known) (hshort : id.length < 128)
    {object : Object} (hobject : objects id = some object) (target : Object) :
    ∃ name after, ((store.daemon platform library).getObjectHead id target).run world =
        .ok ((store.daemon platform library).loadFirst
          [(name, (library.save object).take ((library.save object).length % 2 ^ 32))]
          { target with id := id }) after ∧ after.tree = world.tree := by
  obtain ⟨map, hrep, hmap⟩ := h.texts
  have htexts := hmap id
  rw [hobject] at htexts
  rcases hrep.run_kvGet platform hknown hshort with ⟨hnone, -⟩ | ⟨text, htext, after, hrun, htree⟩
  · exact absurd hnone htexts.1
  · rw [htexts.2 text htext] at hrun
    refine ⟨toHex (store.sha.hash (library.save object)), after, ?_, htree⟩
    simp only [Daemon.getObjectHead, FFStore.daemon, FFStore.plugin,
      ModuleManager.kvGet_singleton, EStateM.run_bind, hrun, if_true, EStateM.run_pure]

/-- The object of an id is loaded as it was stored when its text is not too long. -/
theorem HoldsObjects.run_getObjectHead_some (h : HoldsObjects store library known objects world.tree)
    (platform : Platform) {id : Bytes} (hknown : id ∈ known) (hshort : id.length < 128)
    {object : Object} (hobject : objects id = some object)
    (hsize : (library.save object).length < 2 ^ 32) (target : Object) :
    ∃ after, ((store.daemon platform library).getObjectHead id target).run world =
        .ok (true, object) after ∧ after.tree = world.tree := by
  obtain ⟨name, after, hrun, htree⟩ := h.run_getObjectHead platform hknown hshort hobject target
  refine ⟨after, ?_, htree⟩
  rw [hrun, Nat.mod_eq_of_lt hsize, List.take_length]
  simp [Daemon.loadFirst, FFStore.daemon, library.load_save]

/-- Putting the text of an object under an id that has nothing else. -/
theorem HoldsObjects.run_createObject {map : Multimap} {object : Object}
    (hrep : FFStore.Represents store known map world.tree)
    (hinj : Set.InjOn store.sha.hash known) (platform : Platform) (hknown : object.id ∈ known)
    (htext : library.save object ∈ known) (hshort : object.id.length < 128) :
    ∃ after, ((store.daemon platform library).createObject object).run world = .ok true after ∧
      FFStore.Represents store known
        (FFStore.Op.apply map (.put object.id (library.save object))) after.tree := by
  obtain ⟨after, hrun, hafter⟩ := hrep.put hinj hknown htext hshort
  exact ⟨after, by simpa [Daemon.createObject, FFStore.daemon, FFStore.plugin] using hrun, hafter⟩

/-- A map of texts in which only the texts of one id changed, to those of its next object. -/
theorem HoldsObjects.update (h : HoldsObjects store library known objects world.tree)
    {map after : Multimap} {tree : FileTree} {id : Bytes} {object : Object}
    (hmap : ∀ id, match objects id with
      | none => map id = []
      | some object => map id ≠ [] ∧ ∀ text ∈ map id, text = library.save object)
    (hrep : FFStore.Represents store known after tree)
    (hother : ∀ other, other ≠ id → after other = map other)
    (hself : after id ≠ [] ∧ ∀ text ∈ after id, text = library.save object)
    (hid : object.id = id) :
    HoldsObjects store library known (Function.update objects id (some object)) tree := by
  refine ⟨⟨after, hrep, fun other => ?_⟩, fun other found hfound => ?_⟩
  · by_cases heq : other = id
    · subst heq
      simpa using hself
    · rw [Function.update_of_ne heq, hother other heq]
      exact hmap other
  · by_cases heq : other = id
    · subst heq
      rw [Function.update_self, Option.some.injEq] at hfound
      rw [← hfound, hid]
    · rw [Function.update_of_ne heq] at hfound
      exact h.ids other found hfound

/-- Serving a request for a new id stores its object, twice. -/
theorem HoldsObjects.run_new (h : HoldsObjects store library known objects world.tree)
    (hinj : Set.InjOn store.sha.hash known) (platform : Platform) (base64 : Base64)
    {request : CreateRequest} (hvalid : request.Valid base64) (hknown : request.id ∈ known)
    (hobject : objects request.id = none) {object : Object}
    (hnext : object = (store.daemon platform library).created .new request.time request.content
      request.id)
    (hmakes : (store.daemon platform library).Makes [] request.content)
    (htext : library.save object ∈ known) :
    ∃ response after,
      (LocalStorage.createWithId (store.daemon platform library) base64 request.time request.root
        request.id).run world = .ok (true, response) after ∧
      HoldsObjects store library known (Function.update objects request.id (some object))
        after.tree := by
  obtain ⟨params, hcall, hcontent, hid⟩ := hvalid.json
  obtain ⟨number, hsucceed⟩ := hcall.run_succeed
  obtain ⟨map, hrep, hmap⟩ := h.texts
  have hempty : map request.id = [] := by
    have := hmap request.id
    rwa [hobject] at this
  have hobjectId : object.id = request.id := by rw [hnext]; rfl
  have hshort : object.id.length < 128 := by rw [hobjectId]; exact hvalid.short
  rw [← hobjectId] at hknown
  obtain ⟨first, hfirst, hrepFirst⟩ :=
    HoldsObjects.run_createObject hrep hinj platform hknown htext hshort
  obtain ⟨second, hsecond, hrepSecond⟩ :=
    HoldsObjects.run_createObject hrepFirst hinj platform hknown htext hshort
  rw [hobjectId] at hrepSecond hknown
  refine ⟨Rpc.Response.json ⟨number, [(ascii "id", .str object.id)], [], none⟩, second, ?_,
    h.update hmap hrepSecond (fun other hne => ?_) ?_ hobjectId⟩
  · have hhead := h.run_getObjectHead_none platform hknown hvalid.short hobject .new
    have hcreate : ((store.daemon platform library).create { Object.new with id := request.id }
        request.time request.content request.id).run world = .ok (true, object) first := by
      have hcreated : (store.daemon platform library).created { Object.new with id := request.id }
          request.time request.content request.id = object := hnext.symm
      rw [Daemon.run_create hmakes, hcreated]
      simp only [EStateM.run_bind, hfirst, EStateM.run_pure]
    simp only [LocalStorage.createWithId, EStateM.run_bind, hhead,
      hcall.run_decodeBase64 hcontent, Bool.false_eq_true, if_false, hcreate,
      LocalStorage.storeCreated, hsecond, if_true, hsucceed]
  · simp [FFStore.Op.apply, hne]
  · simp [FFStore.Op.apply, hempty]

/-- Serving a request for an id that has an object replaces the object by its next one. -/
theorem HoldsObjects.run_update (h : HoldsObjects store library known objects world.tree)
    (hinj : Set.InjOn store.sha.hash known) (platform : Platform) (base64 : Base64)
    {request : CreateRequest} (hvalid : request.Valid base64) (hknown : request.id ∈ known)
    {old object : Object} (hobject : objects request.id = some old)
    (hnext : object = (store.daemon platform library).updated old request.time request.content)
    (hmakes : (store.daemon platform library).Makes old.head request.content)
    (htext : library.save object ∈ known) (hsize : (library.save old).length < 2 ^ 32) :
    ∃ response after,
      (LocalStorage.createWithId (store.daemon platform library) base64 request.time request.root
        request.id).run world = .ok (true, response) after ∧
      HoldsObjects store library known (Function.update objects request.id (some object))
        after.tree := by
  obtain ⟨params, hcall, hcontent, hid⟩ := hvalid.json
  obtain ⟨number, hsucceed⟩ := hcall.run_succeed
  obtain ⟨map, hrep, hmap⟩ := h.texts
  have hfull : map request.id ≠ [] := by
    have := hmap request.id
    rw [hobject] at this
    exact this.1
  have hobjectId : object.id = request.id := by
    rw [hnext]
    exact h.ids request.id old hobject
  have hshort : object.id.length < 128 := by rw [hobjectId]; exact hvalid.short
  obtain ⟨loaded, hhead, htree⟩ :=
    h.run_getObjectHead_some platform hknown hvalid.short hobject hsize .new
  rw [← htree] at hrep
  obtain ⟨removed, hremoved, hrepRemoved⟩ :=
    hrep.kvRemove hinj platform hknown hvalid.short hfull
  rw [← hobjectId] at hknown
  obtain ⟨after, hafter, hrepAfter⟩ :=
    HoldsObjects.run_createObject hrepRemoved hinj platform hknown htext hshort
  rw [hobjectId] at hrepAfter
  refine ⟨Rpc.Response.json ⟨number, [(ascii "id", .str object.id)], [], none⟩, after, ?_,
    h.update hmap hrepAfter (fun other hne => ?_) ?_ hobjectId⟩
  · have hdelete : ((store.daemon platform library).deleteObject object.id).run loaded =
        .ok true removed := by
      rw [hobjectId]
      simpa [Daemon.deleteObject, FFStore.daemon, FFStore.plugin] using hremoved
    have hupdate : ((store.daemon platform library).updateObject old request.time
        request.content).run loaded = .ok (true, object) after := by
      rw [Daemon.run_updateObject hmakes, ← hnext]
      simp only [Daemon.save, EStateM.run_bind, hdelete, if_true, hafter, EStateM.run_pure]
    simp only [LocalStorage.createWithId, EStateM.run_bind, hhead,
      hcall.run_decodeBase64 hcontent, if_true, hupdate, hsucceed]
  · simp [FFStore.Op.apply, hne]
  · simp [FFStore.Op.apply]

/-- Serving a valid request answers with success and stores the next object of its id. -/
theorem HoldsObjects.run_request (h : HoldsObjects store library known objects world.tree)
    (hinj : Set.InjOn store.sha.hash known) (platform : Platform) (base64 : Base64)
    {request : CreateRequest} (hvalid : request.Valid base64) (hknown : request.id ∈ known)
    (hmakes : (store.daemon platform library).Makes (Daemon.oldContent objects request.id)
      request.content)
    (htext : library.save ((store.daemon platform library).nextObject objects request) ∈ known)
    (hsize : ∀ old, objects request.id = some old → (library.save old).length < 2 ^ 32) :
    ∃ response after,
      (LocalStorage.createObject (store.daemon platform library) base64 request.time
        request.root).run world = .ok (true, response) after ∧
      HoldsObjects store library known
        ((store.daemon platform library).applyRequest objects request) after.tree := by
  obtain ⟨params, hcall, hcontent, hid⟩ := hvalid.json
  have hrules : ∀ rule ∈ [(ascii "content", ValueType.strType)],
      ((params.lookup rule.1).getD .null).type = rule.2 := by
    simp [hcontent, Value.type]
  simp only [LocalStorage.createObject, EStateM.run_bind, hcall.run_valid world hrules, if_true,
    hcall.run_param, hid, Option.getD_some, Daemon.applyRequest]
  unfold Daemon.nextObject at htext ⊢
  unfold Daemon.oldContent at hmakes
  cases hobject : objects request.id with
  | none =>
      rw [hobject] at htext hmakes
      exact h.run_new hinj platform base64 hvalid hknown hobject rfl hmakes htext
  | some old =>
      rw [hobject] at htext hmakes
      exact h.run_update hinj platform base64 hvalid hknown hobject rfl hmakes htext
        (hsize old hobject)

/-- Serving a run of valid requests stores the objects that the run makes. -/
theorem HoldsObjects.run (h : HoldsObjects store library known objects world.tree)
    (hinj : Set.InjOn store.sha.hash known) (platform : Platform) (base64 : Base64)
    {requests : List CreateRequest} (hvalid : ∀ request ∈ requests, request.Valid base64)
    (hids : ∀ request ∈ requests, request.id ∈ known)
    (hmakes : ∀ front request back, requests = front ++ request :: back →
      (store.daemon platform library).Makes
        (Daemon.oldContent (front.foldl (store.daemon platform library).applyRequest objects)
          request.id) request.content)
    (htexts : ∀ text ∈ (store.daemon platform library).storedTexts objects requests, text ∈ known)
    (hsizes : ∀ text ∈ (store.daemon platform library).storedTexts objects requests,
      text.length < 2 ^ 32)
    (hold : ∀ id object, objects id = some object → (library.save object).length < 2 ^ 32) :
    let objects' := requests.foldl (store.daemon platform library).applyRequest objects
    HoldsObjects store library known objects'
        (requests.foldl ((store.daemon platform library).serve base64) world).tree ∧
      ∀ id object, objects' id = some object → (library.save object).length < 2 ^ 32 := by
  induction requests generalizing objects world with
  | nil => exact ⟨h, hold⟩
  | cons request requests ih =>
      rw [Daemon.storedTexts] at htexts hsizes
      obtain ⟨response, after, hrun, hafter⟩ := h.run_request hinj platform base64
        (hvalid request (by simp)) (hids request (by simp)) (hmakes [] request requests rfl)
        (htexts _ List.mem_cons_self) fun old hobject => hold request.id old hobject
      have hserve : (store.daemon platform library).serve base64 world request = after := by
        rw [Daemon.serve, hrun, EStateM.Result.state_ok]
      simp only [List.foldl_cons, hserve]
      refine ih hafter (fun other hother => hvalid other (by simp [hother]))
        (fun other hother => hids other (by simp [hother]))
        (fun front other back hsplit =>
          hmakes (request :: front) other back (congrArg (request :: ·) hsplit))
        (fun text htext => htexts text (by simp [htext]))
        (fun text htext => hsizes text (by simp [htext])) fun id object hobject => ?_
      rw [Daemon.applyRequest, Function.update_apply] at hobject
      split at hobject
      · rw [Option.some.injEq] at hobject
        rw [← hobject]
        exact hsizes _ List.mem_cons_self
      · exact hold id object hobject

/-- The link directory of a stored object holds one link. -/
theorem HoldsObjects.one_link (h : HoldsObjects store library known objects world.tree) {id : Bytes}
    (hknown : id ∈ known) (hshort : id.length < 128) {object : Object}
    (hobject : objects id = some object) :
    ∃ name target, world.tree.names (store.keyDir id) = [name] ∧
      world.tree.get (store.keyDir id ++ [name]) = some (.link target) := by
  obtain ⟨map, hrep, hmap⟩ := h.texts
  have htexts := hmap id
  rw [hobject] at htexts
  obtain ⟨hne, hall⟩ := htexts
  set name := toHex (store.sha.hash (library.save object)) with hname
  have hmem : ∀ other, other ∈ (map id).map (fun text => toHex (store.sha.hash text)) ↔
      other = name := by
    intro other
    rw [List.mem_map]
    constructor
    · rintro ⟨text, htext, rfl⟩
      rw [hall text htext]
    · rintro rfl
      obtain ⟨text, htext⟩ := List.exists_mem_of_ne_nil _ hne
      exact ⟨text, htext, by rw [hall text htext]⟩
  have hnames : world.tree.names (store.keyDir id) = [name] := by
    refine List.perm_singleton.1 ((List.perm_ext_iff_of_nodup (FileTree.names_nodup _ _)
      (List.nodup_singleton name)).2 fun other => ?_)
    rw [FileTree.mem_names, hrep.entries id hknown hshort, List.mem_singleton, ← hmem]
    simp
  refine ⟨name, store.dataDir ++ shard name, hnames, ?_⟩
  rw [hrep.entries id hknown hshort, if_pos ((hmem name).2 rfl)]

end Steps

/-- The contents that a run gives to an id, oldest first. -/
def contentsOf (id : Bytes) (requests : List CreateRequest) : List Bytes :=
  (requests.filter fun request => request.id = id).map CreateRequest.content

/-- After a run, the object of an id has the last content as its head and a diff per content. -/
theorem Daemon.foldl_applyRequest (daemon : Daemon) (requests : List CreateRequest) (id : Bytes) :
    match requests.foldl daemon.applyRequest (fun _ => none) id with
    | none => contentsOf id requests = []
    | some object => (contentsOf id requests).getLast? = some object.head ∧
        object.diffs.length = (contentsOf id requests).length := by
  induction requests using List.reverseRecOn with
  | nil => rfl
  | append_singleton requests request ih =>
      rw [List.foldl_append, List.foldl_cons, List.foldl_nil, Daemon.applyRequest]
      by_cases hid : id = request.id
      · have hcontents : contentsOf id (requests ++ [request]) =
            contentsOf id requests ++ [request.content] := by
          simp [contentsOf, List.filter_append, hid]
        rw [hcontents, ← hid, Function.update_self, Daemon.nextObject, ← hid]
        cases hold : requests.foldl daemon.applyRequest (fun _ => none) id with
        | none =>
            rw [hold] at ih
            simp [Daemon.created, Object.new, show contentsOf id requests = [] from ih]
        | some object =>
            rw [hold] at ih
            simp [Daemon.updated, ih.2]
      · have hcontents : contentsOf id (requests ++ [request]) = contentsOf id requests := by
          simp [contentsOf, List.filter_append, Ne.symm hid]
        rw [hcontents, Function.update_of_ne hid]
        exact ih

/-- What a request for an id changes is the last content that the run gave to it. -/
theorem Daemon.oldContent_foldl (daemon : Daemon) (requests : List CreateRequest) (id : Bytes) :
    oldContent (requests.foldl daemon.applyRequest fun _ => none) id =
      (contentsOf id requests).getLast?.getD [] := by
  have htrack := daemon.foldl_applyRequest requests id
  rw [oldContent]
  cases hobject : requests.foldl daemon.applyRequest (fun _ => none) id with
  | none =>
      rw [hobject] at htrack
      rw [show contentsOf id requests = [] from htrack]
      rfl
  | some object =>
      rw [hobject] at htrack
      rw [htrack.1]
      rfl

/-- The patches of a run of requests are made: from the last content of an id, or the empty text, to
each content that is given to it. -/
def Daemon.MakesPatches (daemon : Daemon) (requests : List CreateRequest) : Prop :=
  ∀ front request back, requests = front ++ request :: back →
    daemon.Makes ((contentsOf request.id front).getLast?.getD []) request.content

/-- `diff_match_patch` makes the patches of contents that are not huge and do not have many
lines. -/
theorem Daemon.makesPatches_of_few_lines {daemon : Daemon} {clock : Bytes → Bytes → Option Nat}
    (hlibrary : daemon.library = DiffMatchPatch.library clock) {requests : List CreateRequest}
    (hsize : ∀ request ∈ requests, 24 * request.content.length < 2 ^ 31)
    (hlines : ∀ request ∈ requests, request.content.count 10 ≤ 62) :
    daemon.MakesPatches requests := by
  intro front request back hsplit
  have hmem : request ∈ requests := by simp [hsplit]
  have hold : ∀ content, (contentsOf request.id front).getLast?.getD [] = content →
      24 * content.length < 2 ^ 31 ∧ content.count 10 ≤ 62 := by
    rintro content rfl
    cases hlast : (contentsOf request.id front).getLast? with
    | none => exact ⟨by decide, Nat.zero_le _⟩
    | some content =>
        have hcontent := List.mem_of_getLast? hlast
        simp only [contentsOf, List.mem_map, List.mem_filter] at hcontent
        obtain ⟨other, ⟨hother, -⟩, rfl⟩ := hcontent
        have hmem : other ∈ requests := by simp [hsplit, hother]
        exact ⟨hsize other hmem, hlines other hmem⟩
  obtain ⟨hlength, hcount⟩ := hold _ rfl
  have hnew := hsize request hmem
  have hends := hlines request hmem
  rw [Makes, hlibrary]
  exact DiffMatchPatch.patchBetween_isSome _ (by omega) (by omega)

/-- What a client sees of the history of an id: the head is found exactly if there was a request
for the id, it is the last content, there is a diff per content, and one link. -/
def ReadsHistory (store : FFStore) (daemon : Daemon) (id : Bytes) (requests : List CreateRequest)
    (world : World) : Prop :=
  ∃ found object after, (daemon.getObjectHead id .new).run world = .ok (found, object) after ∧
    (found = true ↔ ∃ request ∈ requests, request.id = id) ∧
    ((∃ request ∈ requests, request.id = id) →
      (contentsOf id requests).getLast? = some object.head ∧
      object.diffs.length = (contentsOf id requests).length ∧
      ∃ name target, world.tree.names (store.keyDir id) = [name] ∧
        world.tree.get (store.keyDir id ++ [name]) = some (.link target))

/-- In every run of valid requests whose patches are all made and whose archive texts are all
shorter than 2^32 bytes, every id reads its history. -/
theorem object_store_reads_history (store : FFStore) (platform : Platform) (library : Library)
    (base64 : Base64) (requests : List CreateRequest) (world : World) (id : Bytes)
    (hinit : FFStore.Initial store world.tree)
    (hvalid : ∀ request ∈ requests, request.Valid base64) (hid : id.length < 128)
    (hfree : CollisionFree store.sha (id :: requests.map CreateRequest.id ++
      (store.daemon platform library).storedTexts (fun _ => none) requests))
    (hmakes : (store.daemon platform library).MakesPatches requests)
    (hsizes : ∀ text ∈ (store.daemon platform library).storedTexts (fun _ => none) requests,
      text.length < 2 ^ 32) :
    ReadsHistory store (store.daemon platform library) id requests
      (requests.foldl ((store.daemon platform library).serve base64) world) := by
  set texts := id :: requests.map CreateRequest.id ++
    (store.daemon platform library).storedTexts (fun _ => none) requests with htexts
  have hstart : HoldsObjects store library {text | text ∈ texts} (fun _ => none) world.tree :=
    HoldsObjects.initial hinit
  obtain ⟨hholds, hsmall⟩ := hstart.run
    (fun left hleft right hright => hfree left hleft right hright) platform base64 hvalid
    (fun request hrequest =>
      List.mem_append_left _ (List.mem_cons_of_mem id (List.mem_map_of_mem hrequest)))
    (fun front request back hsplit => by
      rw [Daemon.oldContent_foldl]
      exact hmakes front request back hsplit)
    (fun text htext => by simp [htexts, htext]) hsizes (by simp)
  have hknown : id ∈ {text | text ∈ texts} := by simp [htexts]
  have hused : (∃ request ∈ requests, request.id = id) ↔ contentsOf id requests ≠ [] := by
    simp [contentsOf, List.filter_eq_nil_iff]
  have htrack := (store.daemon platform library).foldl_applyRequest requests id
  cases hobject : requests.foldl (store.daemon platform library).applyRequest (fun _ => none) id with
  | none =>
      rw [hobject] at htrack
      have hnone : ¬ ∃ request ∈ requests, request.id = id := by
        rw [hused]
        exact fun hne => hne htrack
      exact ⟨_, _, _, hholds.run_getObjectHead_none platform hknown hid hobject .new,
        by simp [hnone], fun huse => absurd huse hnone⟩
  | some object =>
      rw [hobject] at htrack
      obtain ⟨after, hrun, -⟩ := hholds.run_getObjectHead_some platform hknown hid hobject
        (hsmall id object hobject) .new
      have huse : ∃ request ∈ requests, request.id = id := by
        rw [hused]
        rintro hnil
        simp [hnil] at htrack
      exact ⟨_, _, _, hrun, by simp [huse],
        fun _ => ⟨htrack.1, htrack.2, hholds.one_link hknown hid hobject⟩⟩

/-- A coder that knows the base64 form of one text. -/
def Base64.ofPair (text code : Bytes) : Base64 where
  encode := Equiv.swap text code
  decode := Equiv.swap text code
  decode_encode := Equiv.swap_apply_self text code

/-- The request `object.create` with an id and a content. -/
def createCall (base64 : Base64) (id content : Bytes) : CreateRequest where
  root := .obj [(ascii "jsonrpc", .str (ascii "2.0")), (ascii "id", .int 1),
    (ascii "method", .str (ascii "object.create")),
    (ascii "params", .obj [(ascii "content", .str (base64.encode content)),
      (ascii "id", .str id)])]
  id := id
  content := content
  time := 0

/-- The request is valid. -/
theorem valid_createCall (base64 : Base64) {id : Bytes} (content : Bytes) (h : id.length < 128) :
    (createCall base64 id content).Valid base64 :=
  ⟨⟨_, ⟨_, _, rfl, rfl, rfl, rfl, by decide, rfl⟩, rfl, rfl⟩, h⟩

/-- The base64 form of the text `a`. -/
def letterCoder : Base64 := .ofPair [97] (ascii "YQ==\n")

/-- The daemon over the store with the digests of some letters. -/
def letterDaemon : Daemon := FFStore.letterStore.daemon FFStore.plainPlatform Hunk.letterLibrary

/-- The object `k` is created with the content `a` and updated to `b`, with another object in
between. -/
def letterRequests : List CreateRequest :=
  [createCall Libb64.coder [107] [97], createCall Libb64.coder [106] [99],
    createCall Libb64.coder [107] [98]]

/-- The object `k` is read back. -/
theorem object_store_reads_letter :
    ReadsHistory FFStore.letterStore letterDaemon [107] letterRequests
      (letterRequests.foldl (letterDaemon.serve Libb64.coder) FFStore.letterStore.fresh) :=
  object_store_reads_history FFStore.letterStore FFStore.plainPlatform Hunk.letterLibrary
    Libb64.coder letterRequests FFStore.letterStore.fresh [107] FFStore.letterStore.initial_fresh
    (fun request hrequest => by
      simp only [letterRequests, List.mem_cons, List.not_mem_nil, or_false] at hrequest
      rcases hrequest with rfl | rfl | rfl <;> exact valid_createCall _ _ (by decide))
    (by decide) (by decide +kernel)
    (Daemon.makesPatches_of_few_lines Hunk.letterLibrary_eq (by decide) (by decide))
    (by decide +kernel)

/-- A store in the directory `/data` with the digest of the id `ob`. -/
def objectStore : FFStore :=
  FFStore.initialise (.ofDigests
    [([111, 98], digest
        0x50a8eae22e2f4fddbd480b7684af236990d549014ee9c3427cd6a438654a3fec
        0x8c16f898eff17bd8e367261eab2918e1522270a5bd0daf1bbea3e3f4e653a51a)])
    [[100, 97, 116, 97]] validPath_data

/-- The daemon over this store. -/
def objectDaemon : Daemon :=
  objectStore.daemon FFStore.plainPlatform (DiffMatchPatch.library fun _ _ => none)

/-- A content of 2147483482 letters; the archive text of its object has 2^32 bytes. -/
@[irreducible] def hugeContent : Bytes := List.replicate 2147483482 97

/-- Its length. -/
theorem length_hugeContent : hugeContent.length = 2147483482 := by
  rw [hugeContent, List.length_replicate]

/-- Its letters are safe. -/
theorem isSafe_hugeContent : ∀ char ∈ hugeContent, DiffMatchPatch.isSafe char = true := by
  intro char hchar
  rw [hugeContent] at hchar
  rw [List.eq_of_mem_replicate hchar]
  decide

/-- The first patch of the huge content is made. -/
theorem patch_hugeContent : objectDaemon.library.patch [] hugeContent =
    some (DiffMatchPatch.escapedPatches (DiffMatchPatch.firstPatches hugeContent)) := by
  refine DiffMatchPatch.patchBetween_empty _ ?_
  rw [DiffMatchPatch.encodedLength_of_isSafe isSafe_hugeContent, length_hugeContent]
  decide

/-- The head of a patch that inserts so many letters. -/
theorem length_hugeHead (diffs : DiffMatchPatch.Diffs) :
    (DiffMatchPatch.headLine ⟨diffs, 0, 0, 0, 2147483482⟩).length = 24 := by
  have hcoords : (DiffMatchPatch.coords 0 2147483482).length = 12 := by decide +kernel
  rw [DiffMatchPatch.headLine]
  simp only [List.length_append]
  rw [hcoords]
  decide +kernel

/-- The text of such a patch is a little longer than the content. -/
theorem length_hugePatch {content : Bytes} (hlength : content.length = 2147483482)
    (hsafe : ∀ char ∈ content, DiffMatchPatch.isSafe char = true) :
    (DiffMatchPatch.escapedPatches (DiffMatchPatch.firstPatches content)).length =
      2147483509 := by
  have hne : content ≠ [] := fun heq => by
    rw [heq, List.length_nil] at hlength
    omega
  have hcast : ((content.length : Nat) : Int) = 2147483482 := by
    rw [hlength]
    norm_num
  rw [DiffMatchPatch.firstPatches, if_neg hne, DiffMatchPatch.escapedPatches,
    List.flatMap_singleton, List.flatMap_singleton, DiffMatchPatch.escapedLine, List.length_append,
    DiffMatchPatch.escaped_of_isSafe hsafe, hcast, length_hugeHead]
  simp only [List.length_append, List.length_cons, List.length_nil, List.cons_append]
  omega

/-- The object `ob` with the huge content. -/
def hugeObject : Object := objectDaemon.created .new 0 hugeContent [111, 98]

/-- The size of the archive text is zero in 32 bits. -/
theorem length_save_hugeObject : (Archive.writeObject hugeObject).length = 2 ^ 32 := by
  have hid : ∀ text, (toHex (objectDaemon.sha.hash text)).length = 128 := fun text => by
    rw [length_toHex, objectDaemon.sha.length_hash]
  have h0 : (Archive.decimal 0).length = 1 := by decide
  have h1 : (Archive.decimal 1).length = 1 := by decide +kernel
  have h2 : (Archive.decimal 2).length = 1 := by decide +kernel
  have h128 : (Archive.decimal 128).length = 3 := by decide +kernel
  have hhead : (Archive.decimal 2147483482).length = 10 := by decide +kernel
  have hdiff : (Archive.decimal 2147483509).length = 10 := by decide +kernel
  have hpatchText : (objectDaemon.library.patchText [] hugeContent).length = 2147483509 := by
    rw [Library.patchText, patch_hugeContent, Option.getD_some,
      length_hugePatch length_hugeContent isSafe_hugeContent]
  simp only [hugeObject, Daemon.created, Daemon.newDiff, Object.new, Archive.writeObject,
    Archive.writeDiff, List.nil_append, List.length_append, List.flatMap_cons, List.flatMap_nil,
    List.append_nil, Archive.length_writeText, Archive.length_writeNumber, hid, hpatchText, length_hugeContent,
    List.length_cons, List.length_nil, h0, h1, h2, h128, hhead, hdiff]
  norm_num

/-- The id and the huge archive text have different hashes. -/
theorem collisionFree_hugeObject : CollisionFree objectStore.sha
    [[111, 98], [111, 98], Archive.writeObject hugeObject] := by
  obtain ⟨rest, hrest⟩ : ∃ rest, Archive.writeObject hugeObject = 50 :: rest :=
    ⟨_, by
      rw [Archive.writeObject, List.append_assoc, List.append_assoc, List.append_assoc,
        show Archive.writeText hugeObject.id = 50 :: [32, 111, 98, 32] by decide +kernel,
        List.cons_append]⟩
  have hne : Archive.writeObject hugeObject ≠ [111, 98] := by simp [hrest]
  have hhash : objectStore.sha.hash [111, 98] ≠
      objectStore.sha.hash (Archive.writeObject hugeObject) := by
    have hid : (objectStore.sha.hash [111, 98]).head? = some 80 := by decide +kernel
    have htext : (objectStore.sha.hash (Archive.writeObject hugeObject)).head? = some 50 := by
      simp only [objectStore, FFStore.initialise, Sha512.ofDigests, lookup_cons_eq_ite, hne,
        if_false, List.lookup_nil, Option.getD_none]
      rw [hrest]
      rfl
    intro heq
    rw [heq, htext] at hid
    simp at hid
  intro left hleft right hright heq
  simp only [List.mem_cons, List.not_mem_nil, or_false, or_self_left] at hleft hright
  rcases hleft with rfl | rfl <;> rcases hright with rfl | rfl
  · rfl
  · exact absurd heq hhash
  · exact absurd heq.symm hhash
  · rfl

/-- The object `ob` with the huge content is stored and not found again. -/
theorem object_store_loses_hugeObject :
    FFStore.Initial objectStore objectStore.fresh.tree ∧
      (createCall Libb64.coder [111, 98] hugeContent).Valid Libb64.coder ∧
      objectDaemon.MakesPatches [createCall Libb64.coder [111, 98] hugeContent] ∧
      CollisionFree objectStore.sha ([111, 98] :: [[111, 98]] ++
        objectDaemon.storedTexts (fun _ => none) [createCall Libb64.coder [111, 98] hugeContent]) ∧
      ¬ ReadsHistory objectStore objectDaemon [111, 98]
        [createCall Libb64.coder [111, 98] hugeContent]
        ([createCall Libb64.coder [111, 98] hugeContent].foldl (objectDaemon.serve Libb64.coder)
          objectStore.fresh) := by
  have hvalid := valid_createCall Libb64.coder hugeContent (show ([111, 98] : Bytes).length < 128 by decide)
  have hmakes : objectDaemon.Makes [] hugeContent := by
    rw [Daemon.Makes, patch_hugeContent, Option.isSome_some]
  have hpatches : objectDaemon.MakesPatches [createCall Libb64.coder [111, 98] hugeContent] := by
    intro front request back hsplit
    obtain ⟨rfl, rfl, rfl⟩ : front = [] ∧ request = createCall Libb64.coder [111, 98] hugeContent ∧
        back = [] := by
      rcases front with _ | ⟨first, front⟩
      · simpa [eq_comm] using hsplit
      · simp at hsplit
    exact hmakes
  refine ⟨objectStore.initial_fresh, hvalid, hpatches, collisionFree_hugeObject, ?_⟩
  set request := createCall Libb64.coder [111, 98] hugeContent with hrequest
  have hstart : HoldsObjects objectStore objectDaemon.library
      {text | text ∈ [[111, 98], [111, 98], Archive.writeObject hugeObject]} (fun _ => none)
      objectStore.fresh.tree := HoldsObjects.initial objectStore.initial_fresh
  obtain ⟨response, after, hrun, hafter⟩ := hstart.run_request
    (fun left hleft right hright => collisionFree_hugeObject left hleft right hright)
    FFStore.plainPlatform Libb64.coder hvalid (by simp [hrequest, createCall]) hmakes
    (show Archive.writeObject hugeObject ∈ _ by simp) (by simp)
  have hserve : objectDaemon.serve Libb64.coder objectStore.fresh request = after :=
    congrArg EStateM.Result.state hrun
  have hobject : objectDaemon.applyRequest (fun _ => none) request [111, 98] = some hugeObject := by
    rw [Daemon.applyRequest, hrequest, createCall, Function.update_self]
    rfl
  obtain ⟨name, last, hhead, -⟩ := hafter.run_getObjectHead FFStore.plainPlatform
    (by simp) (by decide) hobject .new
  -- the text is cut to nothing, and nothing cannot be loaded
  rw [show (objectDaemon.library.save hugeObject).length = 2 ^ 32 from length_save_hugeObject,
    Nat.mod_self, List.take_zero] at hhead
  rintro ⟨found, object, final, hget, hfound, -⟩
  rw [List.foldl_cons, List.foldl_nil, hserve] at hget
  replace hget := hhead.symm.trans hget
  have htrue : found = true := hfound.2 ⟨request, by simp, rfl⟩
  rw [htrue] at hget
  have hload : ∀ into, ∃ overwritten, objectDaemon.library.load [] into = .error overwritten :=
    fun into => ⟨_, rfl⟩
  obtain ⟨overwritten, hoverwritten⟩ := hload { Object.new with id := [111, 98] }
  simp only [Daemon.loadFirst, FFStore.daemon, hoverwritten,
    EStateM.Result.ok.injEq, Prod.mk.injEq, Bool.false_eq_true, false_and] at hget

end AnarchNet
