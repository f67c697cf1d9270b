import AnarchNet.Db.Hunk
import AnarchNet.FFStore.ManyKeys
import AnarchNet.Rpc.Answers

/-!
# Creating the same content again

A request without an id creates its object under an id made from the content, and does not look
whether there is one. What it stores also contains the time, so next to an object that was created
in another second, or that was updated, it adds a second text. `create_again_harmless_iff` says when
it adds none, after every run of requests with and without ids.
-/

namespace AnarchNet

open FileSystem Json Db EStateM Rpc

/-- An `object.create` request: its text, the id that it carries, if any, and the time at which it
is served. -/
structure ObjectRequest where
  root : Value
  id : Option Bytes
  content : Bytes
  time : Nat

/-- The request is valid and carries this content, and this id or none. -/
def ObjectRequest.Valid (base64 : Base64) (request : ObjectRequest) : Prop :=
  ∃ params, IsCall request.root params ∧
    params.lookup (ascii "content") = some (.str (base64.encode request.content)) ∧
    ∀ id, params.lookup (ascii "id") = some (.str id) ↔ request.id = some id

namespace Daemon

variable (daemon : Daemon) (base64 : Base64)

/-- The object that a request stores in a world, if it stores one. -/
def objectFor (world : World) (request : ObjectRequest) : Option Object :=
  match request.id with
  | none =>
      if daemon.Makes [] request.content then
        some (daemon.created .new request.time request.content (daemon.derivedId request.content))
      else none
  | some id =>
      match (daemon.getObjectHead id .new).run world with
      | .ok (found, object) _ =>
          if found then
            if daemon.Makes object.head request.content then
              some (daemon.updated object request.time request.content)
            else none
          else if daemon.Makes [] request.content then
            some (daemon.created object request.time request.content id)
          else none
      | .error _ _ => none

/-- Serving a request leaves its world behind. -/
def serveObject (world : World) (request : ObjectRequest) : World :=
  ((LocalStorage.createObject daemon base64 request.time request.root).run world).state

/-- The archive texts that a run of requests stores. -/
def archiveTexts : World → List ObjectRequest → List Bytes
  | _, [] => []
  | world, request :: rest =>
      ((daemon.objectFor world request).map daemon.library.save).toList ++
        archiveTexts (daemon.serveObject base64 world request) rest

end Daemon

/-- The text is stored under the key: an entry of the directory of the key leads to it. -/
def FFStore.Stores (store : FFStore) (key text : Bytes) (tree : FileTree) : Prop :=
  ∃ name target, tree.get (store.keyDir key ++ [name]) = some (.link target) ∧
    tree.get target = some (.file text)

/-- What is stored under the hashed keys are archive texts of objects of these keys. -/
structure Archives (store : FFStore) (library : Library) (known : Set Bytes)
    (texts : Bytes → List Bytes) (tree : FileTree) : Prop where
  holds : FFStore.HoldsAll store known texts tree
  saved : ∀ id, ∀ text ∈ texts id, ∃ object, text = library.save object ∧
    validateKey store.sha object.id = id ∧ text.length < 2 ^ 32

section Steps

variable {store : FFStore} {library : Library} {base64 : Base64} {known : Set Bytes}
  {texts : Bytes → List Bytes} {world : World} {request : ObjectRequest}

/-- A valid request creates with its id, or without one. -/
theorem ObjectRequest.Valid.run_createObject (h : request.Valid base64) (daemon : Daemon)
    (world : World) :
    (LocalStorage.createObject daemon base64 request.time request.root).run world =
      match request.id with
      | some id =>
          (LocalStorage.createWithId daemon base64 request.time request.root id).run world
      | none => (do
          let made ← daemon.createAnonymous .new request.time request.content
          LocalStorage.storeCreated daemon request.root made.2 : Storage (Bool × Value)).run
            world := by
  obtain ⟨params, hcall, hcontent, hid⟩ := h
  simp only [LocalStorage.createObject, run_bind, hcall.run_valid world
    (show ∀ rule ∈ [(ascii "content", ValueType.strType)], _ by simp [hcontent, Value.type]),
    if_true, hcall.run_param]
  cases hrequest : request.id with
  | some id => rw [(hid id).2 hrequest]; rfl
  | none =>
      have hnone : ∀ id, params.lookup (ascii "id") ≠ some (.str id) := fun id hlookup => by
        have := (hid id).1 hlookup
        rw [hrequest] at this
        cases this
      cases hlookup : params.lookup (ascii "id") with
      | none => simp only [Option.getD_none, run_bind, hcall.run_decodeBase64 hcontent]
      | some value =>
          cases value with
          | str id => exact absurd hlookup (hnone id)
          | _ => simp only [Option.getD_some, run_bind, hcall.run_decodeBase64 hcontent]

/-- Creating an object puts its text. -/
theorem Archives.createObject (h : Archives store library known texts world.tree)
    (platform : Platform) (hinj : Set.InjOn store.sha.hash known) {object : Object}
    (hid : HexId (validateKey store.sha object.id)) (htext : library.save object ∈ known)
    (hsize : (library.save object).length < 2 ^ 32) :
    ∃ after, ((store.daemon platform library).createObject object).run world = .ok true after ∧
      Archives store library known
        (Function.update texts (validateKey store.sha object.id)
          (texts (validateKey store.sha object.id) ++ [library.save object])) after.tree := by
  obtain ⟨after, hrun, hholds⟩ := h.holds.put hinj hid htext
  refine ⟨after, by simpa [Daemon.createObject, FFStore.daemon, FFStore.plugin] using hrun,
    hholds, fun id text hmem => ?_⟩
  by_cases heq : id = validateKey store.sha object.id
  · subst heq
    rw [Function.update_self, List.mem_append, List.mem_singleton] at hmem
    rcases hmem with hold | rfl
    · exact h.saved _ text hold
    · exact ⟨object, rfl, rfl, hsize⟩
  · rw [Function.update_of_ne heq] at hmem
    exact h.saved id text hmem

/-- An object that was just created is stored twice. -/
theorem Archives.storeCreated (h : Archives store library known texts world.tree)
    (platform : Platform) (hinj : Set.InjOn store.sha.hash known) {root : Value}
    {params : List (Bytes × Value)}
    (hcall : IsCall root params) {object : Object}
    (hid : HexId (validateKey store.sha object.id)) (htext : library.save object ∈ known)
    (hsize : (library.save object).length < 2 ^ 32) :
    ∃ first response after,
      ((store.daemon platform library).createObject object).run world = .ok true first ∧
      (LocalStorage.storeCreated (store.daemon platform library) root object).run first =
        .ok (true, response) after ∧
      Archives store library known
        (Function.update texts (validateKey store.sha object.id)
          (texts (validateKey store.sha object.id) ++
            [library.save object, library.save object])) after.tree := by
  obtain ⟨number, hsucceed⟩ := hcall.run_succeed
  obtain ⟨first, hfirst, hthen⟩ := h.createObject platform hinj hid htext hsize
  obtain ⟨after, hsecond, hlast⟩ := hthen.createObject platform hinj hid htext hsize
  refine ⟨first, Response.json ⟨number, [(ascii "id", .str object.id)], [], none⟩, after, hfirst,
    ?_, by simpa using hlast⟩
  simp only [LocalStorage.storeCreated, run_bind, hsecond, if_true, hsucceed]

/-- An id without texts is not found. -/
theorem Archives.getObjectHead_nil (h : Archives store library known texts world.tree)
    (platform : Platform) {id : Bytes} (hid : HexId (validateKey store.sha id))
    (hnone : texts (validateKey store.sha id) = []) (target : Object) :
    ((store.daemon platform library).getObjectHead id target).run world =
      .ok (false, { target with id := id }) world := by
  have hheld := h.holds id hid
  rw [hnone] at hheld
  have hget := hheld.get_nil platform hid
  simp [Daemon.getObjectHead, FFStore.daemon, FFStore.plugin, hget]

/-- An id with texts has the object of one of them. -/
theorem Archives.getObjectHead (h : Archives store library known texts world.tree)
    (platform : Platform) {id : Bytes} (hid : HexId (validateKey store.sha id))
    (hne : texts (validateKey store.sha id) ≠ []) (target : Object) :
    ∃ object after, library.save object ∈ texts (validateKey store.sha id) ∧
      validateKey store.sha object.id = validateKey store.sha id ∧
      ((store.daemon platform library).getObjectHead id target).run world =
        .ok (true, object) after ∧ after.tree = world.tree := by
  obtain ⟨text, htext, after, hget, htree⟩ := h.holds.get platform hid hne
  obtain ⟨object, rfl, hsame, hsize⟩ := h.saved _ text htext
  refine ⟨object, after, htext, hsame, ?_, htree⟩
  rw [Nat.mod_eq_of_lt hsize, List.take_length] at hget
  simp only [Daemon.getObjectHead, FFStore.daemon, FFStore.plugin,
    ModuleManager.kvGet_singleton, run_bind, hget, if_true, run_pure]
  simp [Daemon.loadFirst, library.load_save]

/-- Saving an object replaces all texts of its key by its own. -/
theorem Archives.save (h : Archives store library known texts world.tree) (platform : Platform)
    (hinj : Set.InjOn store.sha.hash known) {object : Object}
    (hid : HexId (validateKey store.sha object.id)) (htext : library.save object ∈ known)
    (hsize : (library.save object).length < 2 ^ 32)
    (hne : texts (validateKey store.sha object.id) ≠ []) :
    ∃ after, ((store.daemon platform library).save object).run world = .ok true after ∧
      Archives store library known
        (Function.update texts (validateKey store.sha object.id) [library.save object])
        after.tree := by
  obtain ⟨middle, hremove, hholds⟩ := h.holds.remove platform hid hne
  have hempty : Archives store library known
      (Function.update texts (validateKey store.sha object.id) []) middle.tree := by
    refine ⟨hholds, fun id text hmem => ?_⟩
    by_cases heq : id = validateKey store.sha object.id
    · simp [heq] at hmem
    · rw [Function.update_of_ne heq] at hmem
      exact h.saved id text hmem
  obtain ⟨after, hcreate, hafter⟩ := hempty.createObject platform hinj hid htext hsize
  have hdelete : ((store.daemon platform library).deleteObject object.id).run world =
      .ok true middle := by
    simpa [Daemon.deleteObject, FFStore.daemon, FFStore.plugin] using hremove
  exact ⟨after, by simp only [Daemon.save, run_bind, hdelete, if_true, hcreate],
    by simpa using hafter⟩

/-- Serving a request without an id adds the text of its object, if it has one, to those of its
id. -/
theorem Archives.serve_anonymous (h : Archives store library known texts world.tree)
    (platform : Platform) (hinj : Set.InjOn store.sha.hash known) (hvalid : request.Valid base64)
    (hnone : request.id = none)
    (hstored : ∀ object ∈ (store.daemon platform library).objectFor world request,
      library.save object ∈ known ∧ (library.save object).length < 2 ^ 32) :
    ∃ added, (∀ text, text ∈ added ↔
        ∃ object ∈ (store.daemon platform library).objectFor world request,
          text = library.save object) ∧
      Archives store library known
        (Function.update texts ((store.daemon platform library).derivedId request.content)
          (texts ((store.daemon platform library).derivedId request.content) ++ added))
        ((store.daemon platform library).serveObject base64 world request).tree := by
  set daemon := store.daemon platform library with hdaemon
  obtain ⟨params, hcall, -⟩ := id hvalid
  have hserve : daemon.serveObject base64 world request =
      ((do
        let made ← daemon.createAnonymous .new request.time request.content
        LocalStorage.storeCreated daemon request.root made.2 : Storage (Bool × Value)).run
          world).state := by
    rw [Daemon.serveObject, hvalid.run_createObject, hnone]
  rw [hserve, run_bind, Daemon.createAnonymous]
  by_cases hmakes : daemon.Makes [] request.content
  · set object := daemon.created .new request.time request.content
      (daemon.derivedId request.content) with hmade
    have hobject : daemon.objectFor world request = some object := by
      rw [Daemon.objectFor, hnone]
      exact if_pos hmakes
    obtain ⟨htext, hsize⟩ := hstored object hobject
    have hsame : validateKey store.sha object.id = daemon.derivedId request.content :=
      FFStore.validateKey_of_hexId _ (store.sha.hexId _)
    obtain ⟨first, response, after, hfirst, hlast, hafter⟩ :=
      h.storeCreated platform hinj hcall (hsame ▸ store.sha.hexId _) htext hsize
    rw [← hdaemon] at hfirst hlast
    refine ⟨[library.save object, library.save object], by simp [hobject], ?_⟩
    have hcreate : (daemon.create .new request.time request.content
        (daemon.derivedId request.content)).run world = .ok (true, object) first := by
      rw [Daemon.run_create hmakes, ← hmade]
      simp only [run_bind, hfirst, run_pure]
    rw [Daemon.derivedId] at hcreate
    simp only [hcreate, hlast, Result.state_ok]
    exact hsame ▸ hafter
  · -- nothing is put when no patch is made
    have hobject : daemon.objectFor world request = none := by
      rw [Daemon.objectFor, hnone]
      exact if_neg hmakes
    refine ⟨[], by simp [hobject], ?_⟩
    rw [Daemon.create, run_bind, Daemon.run_makePatch_not hmakes, List.append_nil,
      Function.update_eq_self]
    exact h

/-- Serving a request with an id leaves archive texts behind. -/
theorem Archives.serve_withId (h : Archives store library known texts world.tree)
    (platform : Platform) (hinj : Set.InjOn store.sha.hash known) (hvalid : request.Valid base64)
    {customId : Bytes} (hrequest : request.id = some customId)
    (hid : HexId (validateKey store.sha customId))
    (hstored : ∀ object ∈ (store.daemon platform library).objectFor world request,
      library.save object ∈ known ∧ (library.save object).length < 2 ^ 32) :
    ∃ texts', Archives store library known texts'
      ((store.daemon platform library).serveObject base64 world request).tree := by
  set daemon := store.daemon platform library with hdaemon
  have hjson := hvalid
  obtain ⟨params, hcall, hcontent, -⟩ := hjson
  obtain ⟨number, hsucceed⟩ := hcall.run_succeed
  rw [Daemon.serveObject, hvalid.run_createObject, hrequest]
  by_cases hnil : texts (validateKey store.sha customId) = []
  · have hhead := h.getObjectHead_nil platform hid hnil .new
    rw [← hdaemon] at hhead
    simp only [LocalStorage.createWithId, run_bind, hhead, hcall.run_decodeBase64 hcontent,
      Bool.false_eq_true, if_false]
    by_cases hmakes : daemon.Makes [] request.content
    · set object := daemon.created { Object.new with id := customId } request.time
        request.content customId with hmade
      obtain ⟨htext, hsize⟩ := hstored object (by
        simp only [Daemon.objectFor, hrequest, hhead, Bool.false_eq_true, if_false, if_pos hmakes]
        exact rfl)
      obtain ⟨first, response, after, hfirst, hlast, hafter⟩ :=
        h.storeCreated platform hinj hcall (show HexId (validateKey store.sha object.id) from hid)
          htext hsize
      rw [← hdaemon] at hfirst hlast
      have hcreate : (daemon.create { Object.new with id := customId } request.time
          request.content customId).run world = .ok (true, object) first := by
        rw [Daemon.run_create hmakes, ← hmade]
        simp only [run_bind, hfirst, run_pure]
      simp only [hcreate, hlast, Result.state_ok]
      exact ⟨_, hafter⟩
    · refine ⟨texts, ?_⟩
      rw [Daemon.create, run_bind, Daemon.run_makePatch_not hmakes]
      exact h
  · obtain ⟨old, middle, hold, hsame, hhead, htree⟩ := h.getObjectHead platform hid hnil .new
    rw [← hdaemon] at hhead
    have hmiddle : Archives store library known texts middle.tree := htree.symm ▸ h
    simp only [LocalStorage.createWithId, run_bind, hhead, hcall.run_decodeBase64 hcontent, if_true]
    by_cases hmakes : daemon.Makes old.head request.content
    · set object := daemon.updated old request.time request.content with hmade
      obtain ⟨htext, hsize⟩ := hstored object (by
        simp only [Daemon.objectFor, hrequest, hhead, if_true, if_pos hmakes]
        exact rfl)
      have hobjectId : validateKey store.sha object.id = validateKey store.sha customId := hsame
      obtain ⟨after, hsave, hafter⟩ := hmiddle.save platform hinj (hobjectId ▸ hid) htext hsize
        (hobjectId ▸ hnil)
      rw [← hdaemon] at hsave
      have hupdate : (daemon.updateObject old request.time request.content).run middle =
          .ok (true, object) after := by
        rw [Daemon.run_updateObject hmakes, ← hmade]
        simp only [run_bind, hsave, run_pure]
      simp only [hupdate, if_true, hsucceed, Result.state_ok]
      exact ⟨_, hafter⟩
    · refine ⟨texts, ?_⟩
      rw [Daemon.updateObject, run_bind, Daemon.run_makePatch_not hmakes]
      exact hmiddle

/-- The requests of a run are valid and have hashed ids. -/
def Serves (store : FFStore) (base64 : Base64) (requests : List ObjectRequest) : Prop :=
  ∀ request ∈ requests, request.Valid base64 ∧
    ∀ id, request.id = some id → HexId (validateKey store.sha id)

/-- A run of requests leaves archive texts behind. -/
theorem Archives.run (h : Archives store library known texts world.tree) (platform : Platform)
    (hinj : Set.InjOn store.sha.hash known) {requests : List ObjectRequest}
    (hserves : Serves store base64 requests)
    (htexts : ∀ text ∈ (store.daemon platform library).archiveTexts base64 world requests,
      text ∈ known ∧ text.length < 2 ^ 32) :
    ∃ texts', Archives store library known texts'
      (requests.foldl ((store.daemon platform library).serveObject base64) world).tree := by
  induction requests generalizing world texts with
  | nil => exact ⟨texts, h⟩
  | cons request rest ih =>
      obtain ⟨hvalid, hids⟩ := hserves request List.mem_cons_self
      have hstored : ∀ object ∈ (store.daemon platform library).objectFor world request,
          library.save object ∈ known ∧ (library.save object).length < 2 ^ 32 :=
        fun object hobject => htexts _ (by
          rw [Daemon.archiveTexts, hobject]
          exact List.mem_cons_self)
      have hstep : ∃ texts', Archives store library known texts'
          ((store.daemon platform library).serveObject base64 world request).tree := by
        cases hrequest : request.id with
        | none =>
            obtain ⟨added, -, hafter⟩ :=
              h.serve_anonymous platform hinj hvalid hrequest hstored
            exact ⟨_, hafter⟩
        | some id => exact h.serve_withId platform hinj hvalid hrequest (hids id hrequest) hstored
      obtain ⟨texts', hafter⟩ := hstep
      exact ih hafter (fun other hother => hserves other (List.mem_cons_of_mem _ hother))
        fun text hmem => htexts text (List.mem_append_right _ hmem)

end Steps

/-! ## What object.get answers -/

/-- An accessor does not depend on the world. -/
theorem steady_access {α : Type} (option : Option α) : Steady (access option) := by
  cases option with
  | none => exact Steady.throw _
  | some value => exact Steady.pure value

/-- A response does not depend on the world. -/
theorem steady_createResponse (request : Value) : Steady (createResponse request) :=
  Steady.bind (steady_access _) fun _ => Steady.bind (steady_access _) fun _ => Steady.pure _

/-- An answer to a call that succeeded does not depend on the world. -/
theorem steady_succeed (request : Value) (data : List (Bytes × Value)) :
    Steady (succeed request data) :=
  Steady.bind (steady_createResponse request) fun _ => Steady.pure _

/-- An answer to a call that failed does not depend on the world. -/
theorem steady_fail (request : Value) (text : Bytes) : Steady (fail request text) :=
  Steady.bind (Steady.bind (steady_createResponse request) fun _ => Steady.pure _) fun _ =>
    Steady.pure _

/-- `GetObject` answers the same in worlds in which `get_object_head` does. -/
theorem getObject_eq_of_head (daemon : Daemon) (base64 : Base64) {query : Value}
    {params : List (Bytes × Value)} {id : Bytes} (hcall : IsCall query params)
    (hid : params.lookup (ascii "id") = some (.str id)) {world other : World}
    (hhead : ((daemon.getObjectHead id .new).run world).value? =
      ((daemon.getObjectHead id .new).run other).value?) :
    ((LocalStorage.getObject daemon base64 query).run world).value? =
      ((LocalStorage.getObject daemon base64 query).run other).value? := by
  simp only [LocalStorage.getObject, run_bind, hcall.run_valid _
    (show ∀ rule ∈ [(ascii "id", ValueType.strType)], _ by simp [hid, Value.type]), if_true,
    hcall.run_paramStr hid]
  cases hleft : (daemon.getObjectHead id .new).run world with
  | error fault middle =>
      rw [hleft] at hhead
      cases hright : (daemon.getObjectHead id .new).run other with
      | error thrown last => rfl
      | ok loaded last => simp [hright, Result.value?] at hhead
  | ok loaded middle =>
      rw [hleft] at hhead
      obtain ⟨last, hright⟩ := Result.exists_of_value? hhead.symm
      rw [hright]
      refine Steady.ite (Steady.bind (steady_access _) fun fields =>
        Steady.bind (steady_access _) fun there => ?_) (steady_fail _ _) middle last
      exact Steady.ite (Steady.bind (steady_access _) fun flag =>
          Steady.bind (steady_access _) fun full =>
            Steady.ite (steady_succeed _ _) (steady_succeed _ _))
        (Steady.bind (Steady.pure _) fun full =>
          Steady.ite (steady_succeed _ _) (steady_succeed _ _))

/-! ## Creating again -/

section Again

variable (store : FFStore) (platform : Platform) (library : Library) (base64 : Base64)

/-- A run of requests. -/
def serveAll (requests : List ObjectRequest) (world : World) : World :=
  requests.foldl ((store.daemon platform library).serveObject base64) world

/-- A request of the run updated the object of an id. -/
def Updated (id : Bytes) (requests : List ObjectRequest) (world : World) : Prop :=
  ∃ front request back, requests = front ++ request :: back ∧ request.id = some id ∧
    ∃ text, store.Stores id text (serveAll store platform library base64 front world).tree

/-- Creating an object again is harmless: if its id is there, at most one text is stored under it
afterwards, and if it was updated, `object.get` answers the same for it as before. -/
structure Harmless (id : Bytes) (updated : Prop) (before after : World) : Prop where
  single : (∃ text, store.Stores id text before.tree) →
    {text | store.Stores id text after.tree}.Subsingleton
  answers : (∃ text, store.Stores id text before.tree) → updated → ∀ query params,
    IsCall query params → params.lookup (ascii "id") = some (.str id) →
      ((LocalStorage.getObject (store.daemon platform library) base64 query).run after).value? =
        ((LocalStorage.getObject (store.daemon platform library) base64 query).run before).value?

/-- The texts of a run and one more request. -/
theorem archiveTexts_concat (requests : List ObjectRequest) (request : ObjectRequest)
    (world : World) :
    (store.daemon platform library).archiveTexts base64 world (requests ++ [request]) =
      (store.daemon platform library).archiveTexts base64 world requests ++
        (((store.daemon platform library).objectFor
          (serveAll store platform library base64 requests world) request).map
            library.save).toList := by
  induction requests generalizing world with
  | nil => exact List.append_nil _
  | cons first rest ih =>
      rw [List.cons_append, Daemon.archiveTexts, ih, Daemon.archiveTexts, List.append_assoc]
      rfl

variable {store platform library base64} {known : Set Bytes} {texts : Bytes → List Bytes}
  {world : World}

/-- An object whose texts are all the same is found, before and after. -/
theorem Archives.value_getObjectHead (h : Archives store library known texts world.tree)
    (platform : Platform) {id : Bytes} (hid : HexId (validateKey store.sha id)) {object : Object}
    (hne : texts (validateKey store.sha id) ≠ [])
    (hall : ∀ text ∈ texts (validateKey store.sha id), text = library.save object) :
    (((store.daemon platform library).getObjectHead id .new).run world).value? =
      some (true, object) := by
  obtain ⟨found, after, hmem, -, hrun, -⟩ := h.getObjectHead platform hid hne .new
  have hsame := library.load_save found .new
  rw [hall _ hmem, library.load_save, Except.ok.injEq] at hsame
  rw [hrun, hsame]
  rfl

/-- Creating an object again is harmless exactly if every text that is stored under its id is the
one that the request stores, and the only one in case that the request stores none. -/
theorem create_again_harmless_iff (store : FFStore) (platform : Platform) (library : Library)
    (base64 : Base64) (requests : List ObjectRequest) (request : ObjectRequest)
    (world before : World) (id : Bytes)
    (hinit : FFStore.Initial store world.tree)
    (hserves : Serves store base64 (requests ++ [request])) (hnone : request.id = none)
    (hfree : CollisionFree store.sha ((store.daemon platform library).archiveTexts base64 world
      (requests ++ [request])))
    (hsizes : ∀ text ∈ (store.daemon platform library).archiveTexts base64 world
      (requests ++ [request]), text.length < 2 ^ 32)
    (hbefore : before = serveAll store platform library base64 requests world)
    (hid : id = (store.daemon platform library).derivedId request.content) :
    Harmless store platform library base64 id
        (Updated store platform library base64 id requests world) before
        ((store.daemon platform library).serveObject base64 before request) ↔
      ∀ text, store.Stores id text before.tree →
        ∀ other, store.Stores id other before.tree ∨
            (store.daemon platform library).Makes [] request.content ∧ other = library.save
              ((store.daemon platform library).created .new request.time request.content id) →
          text = other := by
  set daemon := store.daemon platform library with hdaemon
  set known := {text | text ∈ daemon.archiveTexts base64 world (requests ++ [request])} with hknown
  have hinj : Set.InjOn store.sha.hash known := fun left hleft right hright =>
    hfree left hleft right hright
  have hconcat := archiveTexts_concat store platform library base64 requests request world
  rw [← hdaemon, ← hbefore] at hconcat
  obtain ⟨texts, hruns⟩ := (show Archives store library known (fun _ => []) world.tree from
    ⟨FFStore.HoldsAll.initial hinit known, by simp⟩).run platform hinj
    (fun other hother => hserves other (List.mem_append_left _ hother)) (fun text htext => by
      have hmem : text ∈ daemon.archiveTexts base64 world (requests ++ [request]) := by
        rw [hconcat]
        exact List.mem_append_left _ htext
      exact ⟨hmem, hsizes text hmem⟩)
  change Archives store library known texts
    (serveAll store platform library base64 requests world).tree at hruns
  rw [← hbefore] at hruns
  obtain ⟨hvalid, -⟩ := hserves request (List.mem_append_right _ List.mem_cons_self)
  have hstored : ∀ object ∈ daemon.objectFor before request,
      library.save object ∈ known ∧ (library.save object).length < 2 ^ 32 := by
    intro object hobject
    have hmem : library.save object ∈ daemon.archiveTexts base64 world (requests ++ [request]) := by
      rw [hconcat, hobject]
      exact List.mem_append_right _ List.mem_cons_self
    exact ⟨hmem, hsizes _ hmem⟩
  obtain ⟨added, hadded, hafter⟩ := hruns.serve_anonymous platform hinj hvalid hnone hstored
  have hmade : ∀ text, text ∈ added ↔ daemon.Makes [] request.content ∧
      text = library.save (daemon.created .new request.time request.content id) := by
    intro text
    rw [hadded, ← hdaemon, Daemon.objectFor, hnone, ← hid]
    split_ifs with hmakes
    · simp [hmakes]
    · simp [hmakes]
  have hhex : HexId id := hid ▸ store.sha.hexId _
  have hkey : validateKey store.sha id = id := FFStore.validateKey_of_hexId _ hhex
  rw [← hdaemon, ← hid] at hafter
  set after := daemon.serveObject base64 before request with hafterDef
  have hheld : ∀ text, store.Stores id text before.tree ↔ text ∈ texts id := fun text => by
    have hholds := hruns.holds id (hkey.symm ▸ hhex)
    rw [hkey] at hholds
    exact hholds.exists_entry_iff text
  have hheldAfter : ∀ text, store.Stores id text after.tree ↔ text ∈ texts id ++ added :=
    fun text => by
      have hholds := hafter.holds id (hkey.symm ▸ hhex)
      rw [hkey, Function.update_self] at hholds
      exact hholds.exists_entry_iff text
  have hall : ∀ other, (store.Stores id other before.tree ∨ daemon.Makes [] request.content ∧
      other = library.save (daemon.created .new request.time request.content id)) ↔
        other ∈ texts id ++ added := fun other => by rw [hheld, ← hmade, List.mem_append]
  simp only [hall]
  constructor
  · intro h text htext other hother
    refine h.single ⟨text, htext⟩ ((hheldAfter text).2 ?_) ((hheldAfter other).2 hother)
    exact List.mem_append_left _ ((hheld text).1 htext)
  · intro hsame
    refine ⟨?_, ?_⟩
    · rintro ⟨first, hfirst⟩ text htext other hother
      rw [← hsame first hfirst text ((hheldAfter text).1 htext),
        ← hsame first hfirst other ((hheldAfter other).1 hother)]
    · rintro ⟨text, htext⟩ - query params hcall hlookup
      have hmem := (hheld text).1 htext
      have hne : texts id ≠ [] := List.ne_nil_of_mem hmem
      obtain ⟨object, hobject, -⟩ := hruns.saved id text hmem
      have hlike : ∀ other ∈ texts id ++ added, other = library.save object :=
        fun other hother => (hsame text htext other hother).symm.trans hobject
      have hold : ((daemon.getObjectHead id .new).run before).value? = some (true, object) :=
        hruns.value_getObjectHead platform (hkey.symm ▸ hhex) (by rwa [hkey]) (by
          rw [hkey]
          exact fun text htext => hlike text (List.mem_append_left _ htext))
      have hnew : ((daemon.getObjectHead id .new).run after).value? = some (true, object) :=
        hafter.value_getObjectHead platform (hkey.symm ▸ hhex) (by simp [hkey, hne]) (by
          rw [hkey, Function.update_self]
          exact hlike)
      exact getObject_eq_of_head daemon base64 hcall hlookup (hnew.trans hold.symm)

/-- The text of the object that a request without an id stores. -/
def Daemon.anonymousText (daemon : Daemon) (content : Bytes) (time : Nat) : Bytes :=
  daemon.library.save (daemon.created .new time content (daemon.derivedId content))

/-- The object of a request without an id does not depend on the world. -/
theorem Daemon.map_save_objectFor (daemon : Daemon) (world : World) {request : ObjectRequest}
    (h : request.id = none ∧ daemon.Makes [] request.content) :
    (daemon.objectFor world request).map daemon.library.save =
      some (daemon.anonymousText request.content request.time) := by
  rw [Daemon.objectFor, h.1]
  simp only [if_pos h.2, Option.map_some, Daemon.anonymousText]

/-- The texts that are stored by requests without ids. -/
theorem archiveTexts_anonymous (daemon : Daemon) (base64 : Base64) {requests : List ObjectRequest}
    (h : ∀ request ∈ requests, request.id = none ∧ daemon.Makes [] request.content)
    (world : World) :
    daemon.archiveTexts base64 world requests =
      requests.map fun request => daemon.anonymousText request.content request.time := by
  induction requests generalizing world with
  | nil => rfl
  | cons request rest ih =>
      rw [Daemon.archiveTexts, daemon.map_save_objectFor world (h _ List.mem_cons_self),
        ih (fun other hother => h other (List.mem_cons_of_mem _ hother)), List.map_cons]
      rfl

/-- What is stored under the id of a content after requests without ids for this content. -/
theorem stores_anonymous_iff {requests : List ObjectRequest} {content : Bytes}
    (hinit : FFStore.Initial store world.tree) (hinj : Set.InjOn store.sha.hash known)
    (hmakes : (store.daemon platform library).Makes [] content)
    (hrequests : ∀ request ∈ requests, request.Valid base64 ∧ request.id = none ∧
      request.content = content)
    (hknown : ∀ request ∈ requests,
      (store.daemon platform library).anonymousText content request.time ∈ known ∧
        ((store.daemon platform library).anonymousText content request.time).length < 2 ^ 32)
    (text : Bytes) :
    store.Stores ((store.daemon platform library).derivedId content) text
        (serveAll store platform library base64 requests world).tree ↔
      ∃ request ∈ requests,
        text = (store.daemon platform library).anonymousText content request.time := by
  obtain ⟨id, hid⟩ : ∃ id, id = (store.daemon platform library).derivedId content := ⟨_, rfl⟩
  have hhex : HexId id := hid ▸ store.sha.hexId _
  have hkey : validateKey store.sha id = id := FFStore.validateKey_of_hexId _ hhex
  obtain ⟨texts, harchives, htexts⟩ : ∃ texts, Archives store library known texts
      (serveAll store platform library base64 requests world).tree ∧
      ∀ text, text ∈ texts id ↔ ∃ request ∈ requests,
        text = (store.daemon platform library).anonymousText content request.time := by
    induction requests using List.reverseRecOn with
    | nil => exact ⟨fun _ => [], ⟨FFStore.HoldsAll.initial hinit known, by simp⟩, by simp⟩
    | append_singleton requests request ih =>
        obtain ⟨texts, harchives, htexts⟩ := ih
          (fun other hother => hrequests other (List.mem_append_left _ hother))
          fun other hother => hknown other (List.mem_append_left _ hother)
        have hmem : request ∈ requests ++ [request] :=
          List.mem_append_right _ List.mem_cons_self
        obtain ⟨hvalid, hnone, hcontent⟩ := hrequests request hmem
        obtain ⟨htext, hsize⟩ := hknown request hmem
        have hsave := (store.daemon platform library).map_save_objectFor
          (serveAll store platform library base64 requests world) ⟨hnone, hcontent ▸ hmakes⟩
        rw [hcontent, Option.map_eq_some_iff] at hsave
        obtain ⟨object, hobject, hsave⟩ := hsave
        obtain ⟨added, hadded, hafter⟩ :=
          harchives.serve_anonymous platform hinj hvalid hnone fun other hother => by
            obtain rfl := Option.some.inj (hobject.symm.trans hother)
            exact hsave ▸ ⟨htext, hsize⟩
        have hworld : serveAll store platform library base64 (requests ++ [request]) world =
            (store.daemon platform library).serveObject base64
              (serveAll store platform library base64 requests world) request := by
          rw [serveAll, List.foldl_append]
          rfl
        refine ⟨_, hworld ▸ hafter, fun text => ?_⟩
        rw [hcontent, ← hid, Function.update_self, List.mem_append, htexts, hadded, hobject]
        change library.save object = _ at hsave
        simp [hsave, or_and_right, exists_or]
  have hholds := harchives.holds id (hkey.symm ▸ hhex)
  rw [hkey] at hholds
  rw [← hid, FFStore.Stores, hholds.exists_entry_iff, htexts]

end Again

/-- The digests of the content `a`, of the text from which its id is made, and of its patch. -/
def recreationTable : List (Bytes × Bytes) :=
  [([97], digest
      0x1f40fc92da241694750979ee6cf582f2d5d7d28e18335de05abc54d0560e0f53
      0x02860c652bf08d560252aa5e74210546f369fbbbce8c12cfc7957b2652fe9a75),
    (ascii "OBJECT" ++ digest
      0x1f40fc92da241694750979ee6cf582f2d5d7d28e18335de05abc54d0560e0f53
      0x02860c652bf08d560252aa5e74210546f369fbbbce8c12cfc7957b2652fe9a75, digest
      0xa455734e7fe8845f3355e30aa6c5bfff22307e6145e3a66e1b41760105baeee6
      0x9d88c84988d6cd04e1fc831ac3006abba7f534c5f10e49d676f0c9df954c5b7a),
    (ascii "@@ -0,0 +1 @@\n+a\n", digest
      0x4c0a1b70c37781dfc95b58e7a7a5f7bf4d605b09b3cbbc13dc5763ffa637fb98
      0xb31b649dc8011a4044e9726e4d6d462deec415a3027d65c396599bb7edfe7562)]

/-- The object with the content `a` that is created without an id at a time. -/
def anonymousObject (sha : Sha512) (time : Nat) : Object :=
  let daemon : Daemon := ⟨sha, Hunk.letterLibrary, []⟩
  daemon.created .new time [97] (daemon.derivedId [97])

/-- A store in the directory `/data` with these digests and those of the texts of the object at the
times 0 and 1. -/
def recreationStore : FFStore :=
  FFStore.initialise (.ofDigests (recreationTable ++
    [(Hunk.letterLibrary.save (anonymousObject (.ofDigests recreationTable) 0), digest
        0xda9bc9296ebf30c68d458ffa02d264f2a27373248be1dca8d880f8e8ab582b57
        0x49ca2a8d7887933109b44e79a8e438b61d59d13e0cf341bf85721d8fd743134f),
      (Hunk.letterLibrary.save (anonymousObject (.ofDigests recreationTable) 1), digest
        0xaf8f97034689a5d11898b7bc441318e22ccef176a39108ac0d4f8964ab8f11ae
        0xe2f0966bf45f7da55c82e41146c86f88d2895e0786fa5299abe60cae645e8807)]))
    [[100, 97, 116, 97]] validPath_data

/-- The daemon over this store. -/
def recreationDaemon : Daemon :=
  recreationStore.daemon FFStore.plainPlatform Hunk.letterLibrary

/-- The text of the object at a time. -/
def recreationText (time : Nat) : Bytes :=
  recreationDaemon.anonymousText [97] time

/-- The id of the content `a`. -/
def recreationId : Bytes :=
  recreationDaemon.derivedId [97]

/-- The request that creates the content `a` without an id. -/
def anonymousCall (time : Nat) : ObjectRequest where
  root := .obj [(ascii "jsonrpc", .str (ascii "2.0")), (ascii "id", .int 1),
    (ascii "method", .str (ascii "object.create")),
    (ascii "params", .obj [(ascii "content", .str (letterCoder.encode [97]))])]
  id := none
  content := [97]
  time := time

/-- The request is valid. -/
theorem valid_anonymousCall (time : Nat) : (anonymousCall time).Valid letterCoder := by
  refine ⟨_, ⟨_, _, rfl, rfl, rfl, rfl, by decide, rfl⟩, rfl, fun id => ?_⟩
  constructor
  · intro h
    cases h
  · intro h
    cases h

/-- Requests of this kind can be served. -/
theorem serves_anonymousCall (times : List Nat) :
    Serves recreationStore letterCoder (times.map anonymousCall) := by
  intro request hrequest
  obtain ⟨time, -, rfl⟩ := List.mem_map.1 hrequest
  exact ⟨valid_anonymousCall time, fun id hid => by cases hid⟩

/-- The world after the object was created at these times. -/
def recreationWorld (times : List Nat) : World :=
  serveAll recreationStore FFStore.plainPlatform Hunk.letterLibrary letterCoder
    (times.map anonymousCall) recreationStore.fresh

/-- The texts of the object at the times 0 and 1 differ, have different hashes and are short. -/
theorem recreationTexts_fit :
    CollisionFree recreationStore.sha [recreationText 0, recreationText 1] ∧
      (∀ text ∈ [recreationText 0, recreationText 1], text.length < 2 ^ 32) ∧
      recreationText 0 ≠ recreationText 1 := by
  decide +kernel

/-- The texts that are stored at these times. -/
theorem archiveTexts_recreation (times : List Nat) (world : World) :
    recreationDaemon.archiveTexts letterCoder world (times.map anonymousCall) =
      times.map recreationText := by
  rw [archiveTexts_anonymous _ _ (fun request hrequest => ?_), List.map_map]
  · rfl
  · obtain ⟨time, -, rfl⟩ := List.mem_map.1 hrequest
    exact ⟨rfl, rfl⟩

/-- What is stored under the id after the object was created at these times. -/
theorem stores_recreation_iff {times : List Nat} (htimes : ∀ time ∈ times, time ∈ [0, 1])
    (text : Bytes) : recreationStore.Stores recreationId text (recreationWorld times).tree ↔
      ∃ time ∈ times, text = recreationText time := by
  obtain ⟨hfree, hsizes, -⟩ := recreationTexts_fit
  have hmem : ∀ time ∈ times, recreationText time ∈ [recreationText 0, recreationText 1] :=
    fun time htime => List.mem_map_of_mem (htimes time htime)
  have hiff := @stores_anonymous_iff recreationStore FFStore.plainPlatform Hunk.letterLibrary
    letterCoder {text | text ∈ [recreationText 0, recreationText 1]} recreationStore.fresh
    (times.map anonymousCall) [97] recreationStore.initial_fresh
    (fun left hleft right hright => hfree left hleft right hright) rfl
    (fun request hrequest => by
      obtain ⟨time, -, rfl⟩ := List.mem_map.1 hrequest
      exact ⟨valid_anonymousCall time, rfl, rfl⟩)
    (fun request hrequest => by
      obtain ⟨time, htime, rfl⟩ := List.mem_map.1 hrequest
      exact ⟨hmem time htime, hsizes _ (hmem time htime)⟩) text
  simp only [List.mem_map, exists_exists_and_eq_and] at hiff
  exact hiff

/-- The world after the object was created once more. -/
theorem recreationWorld_concat (times : List Nat) (time : Nat) :
    recreationWorld (times ++ [time]) =
      recreationDaemon.serveObject letterCoder (recreationWorld times) (anonymousCall time) := by
  simp only [recreationWorld, recreationDaemon, List.map_append, List.map_singleton, serveAll,
    List.foldl_append, List.foldl_cons, List.foldl_nil]

/-- Creating the object again in the same second is harmless. -/
theorem harmless_same_second :
    Harmless recreationStore FFStore.plainPlatform Hunk.letterLibrary letterCoder recreationId
      (Updated recreationStore FFStore.plainPlatform Hunk.letterLibrary letterCoder recreationId
        ([0].map anonymousCall) recreationStore.fresh)
      (recreationWorld [0])
      (recreationDaemon.serveObject letterCoder (recreationWorld [0]) (anonymousCall 0)) := by
  have htexts : recreationDaemon.archiveTexts letterCoder recreationStore.fresh
      ([0].map anonymousCall ++ [anonymousCall 0]) = [recreationText 0, recreationText 0] :=
    archiveTexts_recreation [0, 0] recreationStore.fresh
  obtain ⟨hfree, hsizes, -⟩ := recreationTexts_fit
  have hmem : ∀ text ∈ [recreationText 0, recreationText 0],
      text ∈ [recreationText 0, recreationText 1] := by simp
  refine (create_again_harmless_iff recreationStore FFStore.plainPlatform Hunk.letterLibrary
    letterCoder ([0].map anonymousCall) (anonymousCall 0) recreationStore.fresh (recreationWorld [0])
    recreationId recreationStore.initial_fresh (serves_anonymousCall [0, 0]) rfl ?_ ?_ rfl rfl).2
    fun text htext other hother => ?_
  · change CollisionFree _ (recreationDaemon.archiveTexts _ _ _)
    rw [htexts]
    exact fun left hleft right hright => hfree left (hmem _ hleft) right (hmem _ hright)
  · change ∀ text ∈ recreationDaemon.archiveTexts _ _ _, _
    rw [htexts]
    exact fun text htext => hsizes text (hmem _ htext)
  · have hone : ∀ text, recreationStore.Stores recreationId text (recreationWorld [0]).tree →
        text = recreationText 0 := by
      intro text htext
      obtain ⟨time, htime, heq⟩ := (stores_recreation_iff (by simp) text).1 htext
      rwa [List.mem_singleton.1 htime] at heq
    rcases hother with hother | ⟨-, hother⟩
    · rw [hone text htext, hone other hother]
    · rw [hone text htext, hother]
      exact rfl

/-- Creating the object again a second later leaves two texts under its id. -/
theorem harmful_next_second :
    FFStore.Initial recreationStore recreationStore.fresh.tree ∧
      Serves recreationStore letterCoder ([0, 1].map anonymousCall) ∧
      CollisionFree recreationStore.sha
        (recreationDaemon.archiveTexts letterCoder recreationStore.fresh
          ([0, 1].map anonymousCall)) ∧
      ¬ Harmless recreationStore FFStore.plainPlatform Hunk.letterLibrary letterCoder recreationId
        (Updated recreationStore FFStore.plainPlatform Hunk.letterLibrary letterCoder recreationId
          ([0].map anonymousCall) recreationStore.fresh)
        (recreationWorld [0])
        (recreationDaemon.serveObject letterCoder (recreationWorld [0]) (anonymousCall 1)) := by
  refine ⟨recreationStore.initial_fresh, serves_anonymousCall [0, 1], ?_, ?_⟩
  · rw [archiveTexts_recreation]
    exact recreationTexts_fit.1
  rw [← recreationWorld_concat]
  intro h
  have hbefore :
      recreationStore.Stores recreationId (recreationText 0) (recreationWorld [0]).tree :=
    (stores_recreation_iff (by simp) _).2 ⟨0, List.mem_cons_self, rfl⟩
  have hafter : ∀ time ∈ [0, 1], recreationStore.Stores recreationId (recreationText time)
      (recreationWorld ([0] ++ [1])).tree :=
    fun time htime => (stores_recreation_iff (by simp) _).2 ⟨time, htime, rfl⟩
  have hsame : recreationText 0 = recreationText 1 :=
    h.single ⟨_, hbefore⟩ (hafter 0 (by simp)) (hafter 1 (by simp))
  exact recreationTexts_fit.2.2 hsame

end AnarchNet
