import AnarchNet.Db.Hunk
import AnarchNet.FFStore.OneKey
import AnarchNet.Lib.Threads
import AnarchNet.Rpc.Objects

/-!
# Two updates of one object at a time

Several threads of the daemon serve requests, and a request that updates an object reads it,
removes it and stores it again, each of these calls being atomic. `CreateObject` is written as a
thread of such calls, which alone does what the handler does. The store is any plugin that keeps
the texts of the object's id; the flat-file store is one. Two requests for one object are
serializable under a schedule exactly if the schedule is serial.
-/

namespace AnarchNet

open FileSystem Json Db Rpc Threads EStateM

/-- An atomic call of the key-value signals. -/
inductive KvOp where
  | get (key : Bytes)
  | remove (key : Bytes)
  | put (key value : Bytes)

namespace KvOp

/-- What a call answers. -/
abbrev Answer : KvOp → Type
  | get _ => Bool × KvResMap
  | remove _ => Bool
  | put _ _ => Bool

/-- The call on the plugins. -/
def perform (plugins : List KvPlugin) : (op : KvOp) → Storage op.Answer
  | get key => ModuleManager.kvGet plugins key []
  | remove key => ModuleManager.kvRemove plugins key
  | put key value => ModuleManager.kvPut plugins key value

end KvOp

/-- A request handler as a thread: whether it reports success. -/
abbrev HandlerThread := Thread KvOp.Answer Exception Bool

/-- The request is valid and carries this id and this content. -/
def CreateRequest.Asks (base64 : Base64) (request : CreateRequest) : Prop :=
  ∃ params, IsCall request.root params ∧
    params.lookup (ascii "content") = some (.str (base64.encode request.content)) ∧
    params.lookup (ascii "id") = some (.str request.id)

namespace Daemon

variable (daemon : Daemon)

/-- `DBManager::create_object`, and the answer it leads to. -/
def storeThread (object : Object) : HandlerThread :=
  .call (.put object.id (daemon.library.save object)) fun (stored : Bool) => .returned stored

/-- `Object::save`, and the answer it leads to. -/
def saveThread (object : Object) : HandlerThread :=
  .call (.remove object.id) fun (removed : Bool) =>
    if removed then daemon.storeThread object else .returned false

/-- `Object::create`, after which the object is stored once more. -/
def createThread (object : Object) : HandlerThread :=
  .call (.put object.id (daemon.library.save object)) fun _ => daemon.storeThread object

/-- `DBManager::update_object`, and the answer it leads to. -/
def updateThread (object : Object) (request : CreateRequest) : HandlerThread :=
  if daemon.Makes object.head request.content then
    daemon.saveThread (daemon.updated object request.time request.content)
  else .threw .undefined

/-- `Object::create` for a request, and all that follows it. -/
def newThread (object : Object) (request : CreateRequest) : HandlerThread :=
  if daemon.Makes [] request.content then
    daemon.createThread (daemon.created object request.time request.content request.id)
  else .threw .undefined

/-- `CreateObject` for a request with an id, once `get_object_head` has its answer. -/
def loadedThread (request : CreateRequest) (answer : Bool × KvResMap) : HandlerThread :=
  let target := { Object.new with id := request.id }
  let (found, object) := if answer.1 then daemon.loadFirst answer.2 target else (false, target)
  if found then daemon.updateThread object request else daemon.newThread object request

/-- `CreateObject` for a request with an id, after its checks. -/
def handlerThread (request : CreateRequest) : HandlerThread :=
  .call (.get request.id) (daemon.loadedThread request)

end Daemon

section Alone

variable {daemon : Daemon} {request : CreateRequest} {params : List (Bytes × Value)}

/-- The answer to a call says whether the object was stored. -/
theorem run_answer {root : Value} (h : IsCall root params) (stored : Bool)
    (data : List (Bytes × Value)) (text : Bytes) (world : World) :
    ∃ response, (if stored = true then succeed root data
      else LocalStorage.failObject root text).run world = .ok (stored, response) world := by
  obtain ⟨id, hresponse⟩ := h.run_createResponse
  cases stored with
  | true => exact ⟨_, by simp only [if_true, succeed, EStateM.run_bind, hresponse]; rfl⟩
  | false =>
      exact ⟨_, by
        simp only [Bool.false_eq_true, if_false, LocalStorage.failObject, createErrorResponse,
          EStateM.run_bind, hresponse]
        rfl⟩

/-- A thread that makes a call and goes on. -/
theorem run_alone_call {plugins : List KvPlugin} (op : KvOp) (next : op.Answer → HandlerThread)
    (world : World) :
    (Thread.alone (KvOp.perform plugins) (.call op next)).run world =
      match (op.perform plugins).run world with
      | .ok answer after => ((next answer).alone (KvOp.perform plugins)).run after
      | .error fault after => .error fault after := by
  rw [Thread.alone, EStateM.run_bind]
  cases (op.perform plugins).run world with
  | ok answer after => rfl
  | error fault after => rfl

/-- Storing an object and answering. -/
theorem alone_storeThread (object : Object) (world : World) :
    ((daemon.storeThread object).alone (KvOp.perform daemon.plugins)).run world =
      (daemon.createObject object).run world := by
  have hput : (KvOp.perform daemon.plugins (.put object.id (daemon.library.save object))).run world =
      (daemon.createObject object).run world := rfl
  rw [Daemon.storeThread, run_alone_call, hput]
  cases (daemon.createObject object).run world with
  | ok stored after => rfl
  | error fault after => rfl

/-- Saving an object and answering. -/
theorem alone_saveThread (object : Object) (world : World) :
    ((daemon.saveThread object).alone (KvOp.perform daemon.plugins)).run world =
      (daemon.save object).run world := by
  have hremove : (KvOp.perform daemon.plugins (.remove object.id)).run world =
      (daemon.deleteObject object.id).run world := rfl
  rw [Daemon.saveThread, run_alone_call, Daemon.save, EStateM.run_bind, hremove]
  cases (daemon.deleteObject object.id).run world with
  | ok removed after =>
      cases removed with
      | true => exact alone_storeThread object after
      | false => rfl
  | error fault after => rfl

/-- Creating an object, storing it once more, and answering. -/
theorem alone_createThread (object : Object) (world : World) :
    ((daemon.createThread object).alone (KvOp.perform daemon.plugins)).run world =
      (do let _ ← daemon.createObject object; daemon.createObject object : Storage Bool).run
        world := by
  have hput : (KvOp.perform daemon.plugins (.put object.id (daemon.library.save object))).run world =
      (daemon.createObject object).run world := rfl
  rw [Daemon.createThread, run_alone_call, EStateM.run_bind, hput]
  cases (daemon.createObject object).run world with
  | ok stored after => exact alone_storeThread object after
  | error fault after => rfl

/-- Updating an object and answering. -/
theorem alone_updateThread (object : Object) (world : World) :
    ((daemon.updateThread object request).alone (KvOp.perform daemon.plugins)).run world =
      (do
        let _ ← daemon.makePatch object.head request.content
        daemon.save (daemon.updated object request.time request.content) : Storage Bool).run
        world := by
  rw [Daemon.updateThread, EStateM.run_bind]
  split_ifs with hmakes
  · rw [Daemon.run_makePatch hmakes]
    exact alone_saveThread _ world
  · rw [Daemon.run_makePatch_not hmakes]
    rfl

/-- Creating an object for a request and answering. -/
theorem alone_newThread (object : Object) (world : World) :
    ((daemon.newThread object request).alone (KvOp.perform daemon.plugins)).run world =
      (do
        let _ ← daemon.makePatch [] request.content
        let created := daemon.created object request.time request.content request.id
        let _ ← daemon.createObject created
        daemon.createObject created : Storage Bool).run world := by
  rw [Daemon.newThread, EStateM.run_bind]
  split_ifs with hmakes
  · rw [Daemon.run_makePatch hmakes]
    exact alone_createThread _ world
  · rw [Daemon.run_makePatch_not hmakes]
    rfl

/-- The database calls of a request, after which the handler only answers. -/
theorem run_fst_createObject {base64 : Base64} (h : request.Asks base64) (world : World) :
    (Prod.fst <$> LocalStorage.createObject daemon base64 request.time request.root).run world =
      (do
        let (found, object) ← daemon.getObjectHead request.id .new
        if found then do
          let _ ← daemon.makePatch object.head request.content
          daemon.save (daemon.updated object request.time request.content)
        else do
          let _ ← daemon.makePatch [] request.content
          let created := daemon.created object request.time request.content request.id
          let _ ← daemon.createObject created
          daemon.createObject created : Storage Bool).run world := by
  obtain ⟨params, hcall, hcontent, hid⟩ := h
  have hrules : ∀ rule ∈ [(ascii "content", ValueType.strType)],
      ((params.lookup rule.1).getD .null).type = rule.2 := by
    simp [hcontent, Value.type]
  have hvalid := hcall.run_valid world hrules
  simp only [LocalStorage.createObject, run_map_eq, EStateM.run_bind, hvalid, if_true,
    hcall.run_param, hid, Option.getD_some, LocalStorage.createWithId]
  cases (daemon.getObjectHead request.id .new).run world with
  | error fault after => rfl
  | ok loaded after =>
      rcases loaded with ⟨found, object⟩
      simp only [hcall.run_decodeBase64 hcontent]
      cases found with
      | true =>
          simp only [if_true, Daemon.updateObject, EStateM.run_bind]
          cases (daemon.makePatch object.head request.content).run after with
          | error fault last => rfl
          | ok patch made =>
              simp only []
              cases (daemon.save (daemon.updated object request.time request.content)).run made with
              | error fault last => rfl
              | ok saved last =>
                  obtain ⟨response, hanswer⟩ := run_answer hcall saved
                    [(ascii "id", .str (daemon.updated object request.time request.content).id)]
                    (ascii "update object failed") last
                  simp only [EStateM.run_pure, hanswer]
      | false =>
          simp only [Bool.false_eq_true, if_false, Daemon.create, EStateM.run_bind,
            LocalStorage.storeCreated]
          cases (daemon.makePatch [] request.content).run after with
          | error fault last => rfl
          | ok patch made =>
              simp only []
              cases (daemon.createObject (daemon.created object request.time request.content
                request.id)).run made with
              | error fault last => rfl
              | ok stored last =>
                  simp only [EStateM.run_pure]
                  cases (daemon.createObject (daemon.created object request.time request.content
                    request.id)).run last with
                  | error fault final => rfl
                  | ok stored final =>
                      obtain ⟨response, hanswer⟩ := run_answer hcall stored
                        [(ascii "id", .str (daemon.created object request.time request.content
                          request.id).id)] (ascii "create object failed") final
                      simp only [hanswer]

/-- A thread that runs alone is the handler. -/
theorem alone_handlerThread {base64 : Base64} (h : request.Asks base64) (world : World) :
    ((daemon.handlerThread request).alone (KvOp.perform daemon.plugins)).run world =
      (Prod.fst <$> LocalStorage.createObject daemon base64 request.time request.root).run
        world := by
  rw [run_fst_createObject h, Daemon.handlerThread, run_alone_call, KvOp.perform,
    EStateM.run_bind, Daemon.getObjectHead, EStateM.run_bind]
  cases (ModuleManager.kvGet daemon.plugins request.id []).run world with
  | error fault after => rfl
  | ok answer after =>
      rcases answer with ⟨found, result⟩
      cases found with
      | false => exact alone_newThread _ after
      | true =>
          simp only [Daemon.loadedThread, if_true, EStateM.run_pure]
          rcases daemon.loadFirst result { Object.new with id := request.id } with ⟨loaded, object⟩
          cases loaded with
          | true => exact alone_updateThread _ after
          | false => exact alone_newThread _ after

/-- What a thread returns alone the handler answers. -/
theorem exists_run_createObject {base64 : Base64} (h : request.Asks base64) {world after : World}
    {returned : Bool} (hrun : ((daemon.handlerThread request).alone
      (KvOp.perform daemon.plugins)).run world = .ok returned after) :
    ∃ response, (LocalStorage.createObject daemon base64 request.time request.root).run world =
      .ok (returned, response) after := by
  rw [alone_handlerThread h, run_map_eq] at hrun
  cases hcreate :
      (LocalStorage.createObject daemon base64 request.time request.root).run world with
  | error fault last => simp [hcreate] at hrun
  | ok answer last =>
      simp only [hcreate, Result.ok.injEq] at hrun
      exact ⟨answer.2, by rw [← hrun.1, hrun.2]⟩

end Alone

/-- A plugin that keeps the texts put under a key, and yields one of them, as far as the key and
texts of a set are concerned. Removing what is not there throws. -/
structure KvPlugin.Keeps (plugin : KvPlugin) (key : Bytes) (texts : Set Bytes)
    (Holds : List Bytes → World → Prop) : Prop where
  get_none : ∀ world, Holds [] world →
    ∃ after, (plugin.kvGet key).run world = .ok (false, []) after ∧ Holds [] after
  get_some : ∀ held world, Holds held world → held ≠ [] → ∃ name, ∃ text ∈ held, ∃ after,
    (plugin.kvGet key).run world = .ok (true, [(name, text)]) after ∧ Holds held after
  remove_none : ∀ world, Holds [] world →
    ∃ fault after, (plugin.kvRemove key).run world = .error fault after ∧ Holds [] after
  remove_some : ∀ held world, Holds held world → held ≠ [] →
    ∃ after, (plugin.kvRemove key).run world = .ok true after ∧ Holds [] after
  put : ∀ held world text, Holds held world → text ∈ texts →
    ∃ after, (plugin.kvPut key text).run world = .ok true after ∧ Holds (held ++ [text]) after

namespace Daemon

variable (daemon : Daemon)

/-- The object after a request for an update of it. -/
def updatedBy (object : Object) (request : CreateRequest) : Object :=
  daemon.updated object request.time request.content

/-- The object that a request makes when there is none. -/
def createdBy (request : CreateRequest) : Object :=
  daemon.created .new request.time request.content request.id

/-- Two requests served one after the other, and the object that is read then. -/
def servedInTurn (base64 : Base64) (first second : CreateRequest) : Storage (Bool × Object) := do
  let _ ← LocalStorage.createObject daemon base64 first.time first.root
  let _ ← LocalStorage.createObject daemon base64 second.time second.root
  daemon.getObjectHead second.id .new

end Daemon

/-- An object is stored in the only key-value plugin, and two requests ask for an update of it. The
plugin keeps every text that the two can store, and the patches of two updates in turn are made. -/
structure Contended (daemon : Daemon) (base64 : Base64) (request : Bool → CreateRequest)
    (old : Object) (Holds : List Bytes → World → Prop) (world : World) : Prop where
  plugin : ∃ plugin texts, daemon.plugins = [plugin] ∧ plugin.Keeps old.id texts Holds ∧
    ∀ who, daemon.library.save (daemon.updatedBy old (request who)) ∈ texts ∧
      daemon.library.save (daemon.createdBy (request who)) ∈ texts ∧
      daemon.library.save (daemon.updatedBy (daemon.updatedBy old (request who))
        (request !who)) ∈ texts
  asks : ∀ who, (request who).Asks base64 ∧ (request who).id = old.id
  makes : ∀ who, daemon.Makes old.head (request who).content ∧
    daemon.Makes (request who).content (request !who).content
  stored : ∃ held, Holds held world ∧ held ≠ [] ∧ ∀ text ∈ held, text = daemon.library.save old

/-- The two handlers before their first call. -/
def Daemon.bothHandlers (daemon : Daemon) (request : Bool → CreateRequest) (world : World) :
    Config KvOp.Answer Exception Bool World :=
  ⟨fun who => daemon.handlerThread (request who), world⟩

/-- Both handlers report success, and the object that is stored has the diff of one request and
then that of the other, as when they are served in turn. -/
def Serialized (daemon : Daemon) (base64 : Base64) (request : Bool → CreateRequest) (old : Object)
    (world : World) (last : Config KvOp.Answer Exception Bool World) : Prop :=
  (∀ who, last.thread who = .returned true) ∧
    ∃ object after, (daemon.getObjectHead old.id .new).run last.state = .ok (true, object) after ∧
      ∃ who, object = daemon.updatedBy (daemon.updatedBy old (request who)) (request !who) ∧
        ∃ final, (daemon.servedInTurn base64 (request who) (request !who)).run world =
          .ok (true, object) final

section Keeping

variable {daemon : Daemon} {plugin : KvPlugin} {key : Bytes} {texts : Set Bytes}
  {Holds : List Bytes → World → Prop} {world : World} {held : List Bytes} {object : Object}
  {request : CreateRequest}

/-- The text of an object is loaded as the object. -/
theorem Daemon.loadFirst_save (daemon : Daemon) (name : Bytes) (object target : Object) :
    daemon.loadFirst [(name, daemon.library.save object)] target = (true, object) := by
  simp [Daemon.loadFirst, daemon.library.load_save]

/-- A stored object is loaded. -/
theorem KvPlugin.Keeps.run_get (h : plugin.Keeps key texts Holds)
    (hplugins : daemon.plugins = [plugin]) (hheld : Holds held world) (hne : held ≠ []) :
    ∃ text ∈ held, ∃ name after, (ModuleManager.kvGet daemon.plugins key []).run world =
        .ok (true, [(name, text)]) after ∧ Holds held after := by
  obtain ⟨name, text, htext, after, hrun, hafter⟩ := h.get_some held world hheld hne
  exact ⟨text, htext, name, after, by rw [hplugins, ModuleManager.kvGet_singleton, hrun], hafter⟩

/-- The step of a handler that loads the stored object. -/
theorem KvPlugin.Keeps.step_handlerThread (h : plugin.Keeps key texts Holds)
    (hplugins : daemon.plugins = [plugin]) (hid : request.id = key) (hheld : Holds held world)
    (hne : held ≠ []) (hobject : ∀ text ∈ held, text = daemon.library.save object)
    (hmakes : daemon.Makes object.head request.content) :
    ∃ after, (daemon.handlerThread request).step (KvOp.perform daemon.plugins) world =
        some (daemon.saveThread (daemon.updatedBy object request), after) ∧ Holds held after := by
  obtain ⟨text, htext, name, after, hrun, hafter⟩ := h.run_get hplugins hheld hne
  refine ⟨after, ?_, hafter⟩
  rw [Daemon.handlerThread, Thread.step, KvOp.perform, hid, hrun, hobject text htext]
  simp only [Daemon.loadedThread, if_true, Daemon.loadFirst_save, Daemon.updateThread, if_pos hmakes,
    Daemon.updatedBy]

/-- The step of a handler that finds no object. -/
theorem KvPlugin.Keeps.step_handlerThread_nil (h : plugin.Keeps key texts Holds)
    (hplugins : daemon.plugins = [plugin]) (hid : request.id = key) (hheld : Holds [] world) :
    ∃ after, (daemon.handlerThread request).step (KvOp.perform daemon.plugins) world =
        some (daemon.newThread { Object.new with id := request.id } request, after) ∧
      Holds [] after := by
  obtain ⟨after, hrun, hafter⟩ := h.get_none world hheld
  refine ⟨after, ?_, hafter⟩
  rw [Daemon.handlerThread, Thread.step, KvOp.perform, hid, hplugins, ModuleManager.kvGet_singleton,
    hrun]
  rfl

/-- The step that removes the texts of the object. -/
theorem KvPlugin.Keeps.step_saveThread (h : plugin.Keeps key texts Holds)
    (hplugins : daemon.plugins = [plugin]) (object : Object)
    (hid : object.id = key) (hheld : Holds held world)
    (hne : held ≠ []) :
    ∃ after, (daemon.saveThread object).step (KvOp.perform daemon.plugins) world =
        some (daemon.storeThread object, after) ∧ Holds [] after := by
  obtain ⟨after, hrun, hafter⟩ := h.remove_some held world hheld hne
  refine ⟨after, ?_, hafter⟩
  rw [Daemon.saveThread, Thread.step, KvOp.perform, hid, hplugins,
    ModuleManager.kvRemove_singleton, hrun]
  rfl

/-- The step that has nothing to remove. -/
theorem KvPlugin.Keeps.step_saveThread_nil (h : plugin.Keeps key texts Holds)
    (hplugins : daemon.plugins = [plugin]) (object : Object)
    (hid : object.id = key) (hheld : Holds [] world) :
    ∃ fault after, (daemon.saveThread object).step (KvOp.perform daemon.plugins) world =
        some (.threw fault, after) ∧ Holds [] after := by
  obtain ⟨fault, after, hrun, hafter⟩ := h.remove_none world hheld
  refine ⟨fault, after, ?_, hafter⟩
  rw [Daemon.saveThread, Thread.step, KvOp.perform, hid, hplugins,
    ModuleManager.kvRemove_singleton, hrun]

/-- The step that stores a new object for the first time. -/
theorem KvPlugin.Keeps.step_createThread (h : plugin.Keeps key texts Holds)
    (hplugins : daemon.plugins = [plugin]) (object : Object)
    (hid : object.id = key) (hheld : Holds held world)
    (htext : daemon.library.save object ∈ texts) :
    ∃ after, (daemon.createThread object).step (KvOp.perform daemon.plugins) world =
        some (daemon.storeThread object, after) ∧
      Holds (held ++ [daemon.library.save object]) after := by
  obtain ⟨after, hrun, hafter⟩ := h.put held world _ hheld htext
  refine ⟨after, ?_, hafter⟩
  rw [Daemon.createThread, Thread.step, KvOp.perform, hid, hplugins,
    ModuleManager.kvPut_singleton, hrun]

/-- The step that stores an object for the last time. -/
theorem KvPlugin.Keeps.step_storeThread (h : plugin.Keeps key texts Holds)
    (hplugins : daemon.plugins = [plugin]) (object : Object)
    (hid : object.id = key) (hheld : Holds held world)
    (htext : daemon.library.save object ∈ texts) :
    ∃ after, (daemon.storeThread object).step (KvOp.perform daemon.plugins) world =
        some (.returned true, after) ∧ Holds (held ++ [daemon.library.save object]) after := by
  obtain ⟨after, hrun, hafter⟩ := h.put held world _ hheld htext
  refine ⟨after, ?_, hafter⟩
  rw [Daemon.storeThread, Thread.step, KvOp.perform, hid, hplugins,
    ModuleManager.kvPut_singleton, hrun]

/-- A handler that runs alone on a stored object updates it. -/
theorem KvPlugin.Keeps.run_alone (h : plugin.Keeps key texts Holds)
    (hplugins : daemon.plugins = [plugin]) (hid : request.id = key) (hobjectId : object.id = key)
    (hheld : Holds held world) (hne : held ≠ [])
    (hobject : ∀ text ∈ held, text = daemon.library.save object)
    (hmakes : daemon.Makes object.head request.content)
    (htext : daemon.library.save (daemon.updatedBy object request) ∈ texts) :
    ∃ after, ((daemon.handlerThread request).alone (KvOp.perform daemon.plugins)).run world =
        .ok true after ∧ Holds [daemon.library.save (daemon.updatedBy object request)] after := by
  obtain ⟨loaded, hload, hloaded⟩ := h.step_handlerThread hplugins hid hheld hne hobject hmakes
  obtain ⟨removed, hremove, hremoved⟩ :=
    h.step_saveThread hplugins (daemon.updatedBy object request) hobjectId hloaded hne
  obtain ⟨after, hstore, hafter⟩ :=
    h.step_storeThread hplugins (daemon.updatedBy object request) hobjectId hremoved htext
  refine ⟨after, ?_, hafter⟩
  rw [Thread.alone_of_step hload, Thread.alone_of_step hremove, Thread.alone_of_step hstore]
  rfl

end Keeping

/-- A thread that has loaded, and has in hand an object with at most this many diffs. -/
inductive Late (daemon : Daemon) (key : Bytes) (texts : Set Bytes) (limit : Nat) :
    HandlerThread → Prop where
  | ended {thread : HandlerThread} (h : thread.Ended) : Late daemon key texts limit thread
  | save {object : Object} (hid : object.id = key) (hlength : object.diffs.length ≤ limit)
      (htext : daemon.library.save object ∈ texts) :
      Late daemon key texts limit (daemon.saveThread object)
  | create {object : Object} (hid : object.id = key) (hlength : object.diffs.length ≤ limit)
      (htext : daemon.library.save object ∈ texts) :
      Late daemon key texts limit (daemon.createThread object)
  | store {object : Object} (hid : object.id = key) (hlength : object.diffs.length ≤ limit)
      (htext : daemon.library.save object ∈ texts) :
      Late daemon key texts limit (daemon.storeThread object)

/-- The texts that are held are those of objects with at most this many diffs. -/
def HoldsShort (daemon : Daemon) (Holds : List Bytes → World → Prop) (limit : Nat)
    (world : World) : Prop :=
  ∃ held, Holds held world ∧
    ∀ text ∈ held, ∃ object, object.diffs.length ≤ limit ∧ text = daemon.library.save object

section Late

variable {daemon : Daemon} {plugin : KvPlugin} {key : Bytes} {texts : Set Bytes}
  {Holds : List Bytes → World → Prop} {limit : Nat}

/-- One more text of a short object is held. -/
theorem HoldsShort.put {held : List Bytes} {world : World} {object : Object}
    (h : ∀ text ∈ held, ∃ object, object.diffs.length ≤ limit ∧ text = daemon.library.save object)
    (hlength : object.diffs.length ≤ limit)
    (hworld : Holds (held ++ [daemon.library.save object]) world) :
    HoldsShort daemon Holds limit world := by
  refine ⟨_, hworld, fun text htext => ?_⟩
  rcases List.mem_append.1 htext with htext | htext
  · exact h text htext
  · exact ⟨object, hlength, List.mem_singleton.1 htext⟩

/-- Once a thread has loaded, its steps store nothing longer. -/
theorem Late.step {thread next : HandlerThread} {world after : World}
    (h : Late daemon key texts limit thread) (hkeeps : plugin.Keeps key texts Holds)
    (hplugins : daemon.plugins = [plugin]) (hheld : HoldsShort daemon Holds limit world)
    (hstep : thread.step (KvOp.perform daemon.plugins) world = some (next, after)) :
    Late daemon key texts limit next ∧ HoldsShort daemon Holds limit after := by
  obtain ⟨held, hworld, hshort⟩ := hheld
  cases h with
  | ended h => rw [h.step_eq_none] at hstep; cases hstep
  | @save object hid hlength htext =>
      by_cases hne : held = []
      · subst hne
        obtain ⟨fault, final, hrun, hfinal⟩ :=
          hkeeps.step_saveThread_nil hplugins object hid hworld
        rw [hrun, Option.some.injEq, Prod.mk.injEq] at hstep
        obtain ⟨rfl, rfl⟩ := hstep
        exact ⟨.ended trivial, [], hfinal, by simp⟩
      · obtain ⟨final, hrun, hfinal⟩ := hkeeps.step_saveThread hplugins object hid hworld hne
        rw [hrun, Option.some.injEq, Prod.mk.injEq] at hstep
        obtain ⟨rfl, rfl⟩ := hstep
        exact ⟨.store hid hlength htext, [], hfinal, by simp⟩
  | @create object hid hlength htext =>
      obtain ⟨final, hrun, hfinal⟩ := hkeeps.step_createThread hplugins object hid hworld htext
      rw [hrun, Option.some.injEq, Prod.mk.injEq] at hstep
      obtain ⟨rfl, rfl⟩ := hstep
      exact ⟨.store hid hlength htext, HoldsShort.put hshort hlength hfinal⟩
  | @store object hid hlength htext =>
      obtain ⟨final, hrun, hfinal⟩ := hkeeps.step_storeThread hplugins object hid hworld htext
      rw [hrun, Option.some.injEq, Prod.mk.injEq] at hstep
      obtain ⟨rfl, rfl⟩ := hstep
      exact ⟨.ended trivial, HoldsShort.put hshort hlength hfinal⟩

/-- Once both threads have loaded, nothing longer is stored to the end of the schedule. -/
theorem holdsShort_of_late {config last : Config KvOp.Answer Exception Bool World}
    {schedule : List Bool} (hkeeps : plugin.Keeps key texts Holds)
    (hplugins : daemon.plugins = [plugin])
    (hlate : ∀ who, Late daemon key texts limit (config.thread who))
    (hheld : HoldsShort daemon Holds limit config.state)
    (hrun : Config.run (KvOp.perform daemon.plugins) schedule config = some last) :
    HoldsShort daemon Holds limit last.state := by
  have hinv := Config.run_invariant
    (fun config => (∀ who, Late daemon key texts limit (config.thread who)) ∧
      HoldsShort daemon Holds limit config.state) ?_ hrun ⟨hlate, hheld⟩
  · exact hinv.2
  · rintro config who - next ⟨hlate, hheld⟩ hturn
    obtain ⟨hstep, hother⟩ := Config.turn_eq_some hturn
    obtain ⟨hnext, hafter⟩ := (hlate who).step hkeeps hplugins hheld hstep
    refine ⟨fun other => ?_, hafter⟩
    by_cases heq : other = who
    · exact heq ▸ hnext
    · rw [Bool.eq_not.2 heq, hother]
      exact hlate _

/-- What is loaded from texts of short objects is short. -/
theorem HoldsShort.length_le {world after : World} {object target : Object}
    (h : HoldsShort daemon Holds limit world) (hkeeps : plugin.Keeps key texts Holds)
    (hplugins : daemon.plugins = [plugin])
    (hrun : (daemon.getObjectHead key target).run world = .ok (true, object) after) :
    object.diffs.length ≤ limit := by
  obtain ⟨held, hheld, hshort⟩ := h
  by_cases hne : held = []
  · subst hne
    obtain ⟨final, hget, -⟩ := hkeeps.get_none world hheld
    simp [Daemon.getObjectHead, hplugins, hget] at hrun
  · obtain ⟨text, htext, name, final, hget, -⟩ := hkeeps.run_get hplugins hheld hne
    obtain ⟨found, hlength, rfl⟩ := hshort text htext
    simp only [Daemon.getObjectHead, EStateM.run_bind, hget, if_true, EStateM.run_pure,
      Daemon.loadFirst_save, Result.ok.injEq, Prod.mk.injEq, true_and] at hrun
    exact hrun.1 ▸ hlength

end Late

section Contention

variable {daemon : Daemon} {base64 : Base64} {request : Bool → CreateRequest} {old : Object}
  {Holds : List Bytes → World → Prop} {world : World}

/-- A handler that has had its first turns, with the store as it was or emptied, or at its end. -/
def Begun (daemon : Daemon) (request : Bool → CreateRequest) (old : Object)
    (Holds : List Bytes → World → Prop) (who : Bool)
    (config : Config KvOp.Answer Exception Bool World) : Prop :=
  (config.thread who).Ended ∨
    (config.thread who = daemon.saveThread (daemon.updatedBy old (request who)) ∧
      ∃ held, held ≠ [] ∧ Holds held config.state ∧
        ∀ text ∈ held, text = daemon.library.save old) ∨
    (config.thread who = daemon.storeThread (daemon.updatedBy old (request who)) ∧
      Holds [] config.state)

/-- The first turns of the handler that begins. -/
theorem Contended.begun (h : Contended daemon base64 request old Holds world) {who : Bool}
    {count : Nat} {config : Config KvOp.Answer Exception Bool World}
    (hrun : Config.run (KvOp.perform daemon.plugins) (who :: List.replicate count who)
      (daemon.bothHandlers request world) = some config) :
    Begun daemon request old Holds who config := by
  obtain ⟨plugin, texts, hplugins, hkeeps, htexts⟩ := h.plugin
  obtain ⟨held, hheld, hne, hobject⟩ := h.stored
  obtain ⟨first, hfirst, hrest⟩ := Option.bind_eq_some_iff.1 hrun
  obtain ⟨hstep, -⟩ := Config.turn_eq_some hfirst
  refine Config.run_invariant (Begun daemon request old Holds who) ?_ hrest ?_
  · intro config turned hturned next hbegun hturn
    obtain rfl := List.eq_of_mem_replicate hturned
    obtain ⟨hstep, -⟩ := Config.turn_eq_some hturn
    rcases hbegun with hended | ⟨hthread, held, hne, hheld, -⟩ | ⟨hthread, hheld⟩
    · rw [hended.step_eq_none] at hstep
      cases hstep
    · obtain ⟨after, hrun, hafter⟩ := hkeeps.step_saveThread hplugins
        (daemon.updatedBy old (request turned)) rfl hheld hne
      rw [hthread, hrun, Option.some.injEq, Prod.mk.injEq] at hstep
      exact Or.inr (Or.inr ⟨hstep.1.symm, hstep.2 ▸ hafter⟩)
    · obtain ⟨after, hrun, -⟩ := hkeeps.step_storeThread hplugins
        (daemon.updatedBy old (request turned)) rfl hheld (htexts turned).1
      rw [hthread, hrun, Option.some.injEq, Prod.mk.injEq] at hstep
      exact Or.inl (hstep.1 ▸ trivial)
  · obtain ⟨after, hrun, hafter⟩ :=
      hkeeps.step_handlerThread hplugins (h.asks who).2 hheld hne hobject (h.makes who).1
    rw [Daemon.bothHandlers, hrun, Option.some.injEq, Prod.mk.injEq] at hstep
    exact Or.inr (Or.inl ⟨hstep.1.symm, held, hne, hstep.2 ▸ hafter, hobject⟩)

/-- When the second handler loads before the first one has ended, both store an object with one diff
more than there was. -/
theorem Contended.short_of_overlap (h : Contended daemon base64 request old Holds world)
    {who : Bool} {schedule : List Bool} {config last : Config KvOp.Answer Exception Bool World}
    (hbegun : Begun daemon request old Holds who config) (hended : ¬ (config.thread who).Ended)
    (hother : config.thread (!who) = daemon.handlerThread (request !who))
    (hrun : Config.run (KvOp.perform daemon.plugins) ((!who) :: schedule) config = some last) :
    HoldsShort daemon Holds (old.diffs.length + 1) last.state := by
  obtain ⟨plugin, texts, hplugins, hkeeps, htexts⟩ := h.plugin
  obtain ⟨next, hnext, hrest⟩ := Option.bind_eq_some_iff.1 hrun
  obtain ⟨hstep, hsame⟩ := Config.turn_eq_some hnext
  rw [Bool.not_not] at hsame
  have hupdated (who : Bool) :
      (daemon.updatedBy old (request who)).diffs.length ≤ old.diffs.length + 1 := by
    simp [Daemon.updatedBy, Daemon.updated]
  have hcreated : (daemon.createdBy (request !who)).diffs.length ≤ old.diffs.length + 1 := by
    simp [Daemon.createdBy, Daemon.created, Object.new]
  suffices hboth : (Late daemon old.id texts (old.diffs.length + 1) (next.thread who) ∧
      Late daemon old.id texts (old.diffs.length + 1) (next.thread !who)) ∧
      HoldsShort daemon Holds (old.diffs.length + 1) next.state by
    refine holdsShort_of_late hkeeps hplugins (fun turned => ?_) hboth.2 hrest
    by_cases heq : turned = who
    · exact heq ▸ hboth.1.1
    · exact Bool.eq_not.2 heq ▸ hboth.1.2
  rw [hsame]
  rcases hbegun with hend | ⟨hthread, held, hne, hheld, hobject⟩ | ⟨hthread, hheld⟩
  · exact absurd hend hended
  · obtain ⟨after, hload, hafter⟩ :=
      hkeeps.step_handlerThread hplugins (h.asks !who).2 hheld hne hobject (h.makes !who).1
    rw [hother, hload, Option.some.injEq, Prod.mk.injEq] at hstep
    rw [hthread, ← hstep.1, ← hstep.2]
    exact ⟨⟨.save rfl (hupdated who) (htexts who).1, .save rfl (hupdated !who) (htexts !who).1⟩,
      held, hafter, fun text htext => ⟨old, Nat.le_succ _, hobject text htext⟩⟩
  · obtain ⟨after, hload, hafter⟩ :=
      hkeeps.step_handlerThread_nil hplugins (h.asks !who).2 hheld
    rw [hother, hload, Option.some.injEq, Prod.mk.injEq] at hstep
    rw [hthread, ← hstep.1, ← hstep.2]
    refine ⟨⟨.store rfl (hupdated who) (htexts who).1, ?_⟩, [], hafter, by simp⟩
    rw [Daemon.newThread]
    split_ifs with hmakes
    · exact .create (h.asks !who).2 hcreated (htexts !who).2.1
    · exact .ended trivial

/-- A serial schedule serves the two requests in turn. -/
theorem Contended.serialized_of_serial (h : Contended daemon base64 request old Holds world)
    {who : Bool} {first second : Nat} {last : Config KvOp.Answer Exception Bool World}
    (hrun : Config.run (KvOp.perform daemon.plugins)
      (List.replicate first who ++ List.replicate second (!who))
      (daemon.bothHandlers request world) = some last)
    (hended : ∀ who, (last.thread who).Ended) :
    Serialized daemon base64 request old world last := by
  obtain ⟨plugin, texts, hplugins, hkeeps, htexts⟩ := h.plugin
  obtain ⟨held, hheld, hne, hobject⟩ := h.stored
  rw [Config.run_append] at hrun
  obtain ⟨middle, hfirst, hsecond⟩ := Option.bind_eq_some_iff.1 hrun
  obtain ⟨hother, halone⟩ := Config.run_replicate hfirst
  obtain ⟨hkept, halone'⟩ := Config.run_replicate hsecond
  rw [Bool.not_not] at hkept
  -- the first handler has ended before the second one begins
  obtain ⟨after, hupdate, hafter⟩ := hkeeps.run_alone hplugins (h.asks who).2 rfl hheld hne hobject
    (h.makes who).1 (htexts who).1
  have hreturned := (hkept ▸ hended who : (middle.thread who).Ended).eq_returned
    (halone.symm.trans hupdate)
  obtain ⟨final, hupdate', hfinal⟩ := hkeeps.run_alone hplugins (h.asks !who).2
    (show (daemon.updatedBy old (request who)).id = old.id from rfl) hafter (by simp) (by simp)
    (h.makes who).2 (htexts who).2.2
  rw [hother, hreturned.2] at halone'
  have hreturned' := (hended !who).eq_returned (halone'.symm.trans hupdate')
  obtain ⟨text, htext, name, loaded, hget, -⟩ := hkeeps.run_get hplugins hfinal (by simp)
  obtain rfl := List.mem_singleton.1 htext
  have hhead : (daemon.getObjectHead old.id .new).run final = .ok (true,
      daemon.updatedBy (daemon.updatedBy old (request who)) (request !who)) loaded := by
    simp only [Daemon.getObjectHead, EStateM.run_bind, hget, if_true, EStateM.run_pure,
      Daemon.loadFirst_save]
  refine ⟨fun turned => ?_, _, loaded, hreturned'.2 ▸ hhead, who, rfl, loaded, ?_⟩
  · by_cases heq : turned = who
    · rw [heq, hkept, hreturned.1]
    · rw [Bool.eq_not.2 heq, hreturned'.1]
  · obtain ⟨response, hserved⟩ := exists_run_createObject (h.asks who).1 hupdate
    obtain ⟨response', hserved'⟩ := exists_run_createObject (h.asks !who).1 hupdate'
    simp only [Daemon.servedInTurn, EStateM.run_bind, hserved, hserved', (h.asks !who).2, hhead]

/-- A schedule under which the two requests are serializable is serial. -/
theorem Contended.serial_of_serialized (h : Contended daemon base64 request old Holds world)
    {schedule : List Bool} {last : Config KvOp.Answer Exception Bool World}
    (hrun : Config.run (KvOp.perform daemon.plugins) schedule
      (daemon.bothHandlers request world) = some last)
    (hended : ∀ who, (last.thread who).Ended)
    (hserialized : Serialized daemon base64 request old world last) : Serial schedule := by
  cases schedule with
  | nil =>
      rw [Config.run, Option.some.injEq] at hrun
      have hnow := hended true
      rw [← hrun] at hnow
      exact False.elim hnow
  | cons who rest =>
      rcases exists_first_change who rest with ⟨count, rfl⟩ | ⟨count, later, rfl⟩
      · rw [← List.replicate_succ] at hrun
        have hnow := hended !who
        rw [(Config.run_replicate hrun).1] at hnow
        exact False.elim hnow
      · rw [← List.cons_append, Config.run_append] at hrun
        obtain ⟨config, hfirst, hrest⟩ := Option.bind_eq_some_iff.1 hrun
        by_cases hend : (config.thread who).Ended
        · refine ⟨who, count + 1, ((!who) :: later).length, ?_⟩
          rw [← Config.schedule_eq_replicate hend hrest, List.replicate_succ, List.cons_append]
        · -- an object with the diffs of both requests is longer than any that is stored
          have hother := (Config.run_replicate (List.replicate_succ ▸ hfirst)).1
          have hshort := h.short_of_overlap (h.begun hfirst) hend hother hrest
          obtain ⟨plugin, texts, hplugins, hkeeps, -⟩ := h.plugin
          obtain ⟨-, object, after, hhead, turned, rfl, -⟩ := hserialized
          have hlength := hshort.length_le hkeeps hplugins hhead
          simp [Daemon.updatedBy, Daemon.updated] at hlength

/-- Two requests that update one object at a time are serializable under a schedule exactly if it
is serial. -/
theorem serialized_iff_serial (h : Contended daemon base64 request old Holds world)
    {schedule : List Bool} {last : Config KvOp.Answer Exception Bool World}
    (hrun : Config.run (KvOp.perform daemon.plugins) schedule
      (daemon.bothHandlers request world) = some last)
    (hended : ∀ who, (last.thread who).Ended) :
    Serialized daemon base64 request old world last ↔ Serial schedule := by
  refine ⟨h.serial_of_serialized hrun hended, ?_⟩
  rintro ⟨who, first, second, rfl⟩
  exact h.serialized_of_serial hrun hended

end Contention

/-- The flat-file store keeps the texts of a key that is hashed, or is the hex form of a hash, as
long as no two of the texts have one hash and none of them is 4 GiB long. -/
theorem FFStore.keeps (store : FFStore) (platform : Platform) {known : Set Bytes}
    (hinj : Set.InjOn store.sha.hash known) (hsizes : ∀ text ∈ known, text.length < 2 ^ 32)
    {key : Bytes} (hkey : HexId (validateKey store.sha key)) :
    (store.plugin platform).Keeps key known
      fun held world => HoldsKey store known key held world.tree where
  get_none world h := ⟨world, h.get_nil platform hkey, h⟩
  get_some held world h hne := by
    obtain ⟨text, htext, after, hrun, hafter⟩ := h.get platform hkey hne
    rw [Nat.mod_eq_of_lt (hsizes text (h.values text htext)), List.take_length] at hrun
    exact ⟨_, text, htext, after, hrun, hafter⟩
  remove_none world h := by
    obtain ⟨after, hrun, hafter⟩ := h.remove_nil platform hkey
    exact ⟨_, after, hrun, hafter⟩
  remove_some held world h hne := h.remove platform hkey hne
  put held world text h htext := h.put hinj hkey htext

/-- An object `k` with the content `a`, and two requests that ask for this content again. -/
def againCall : Bool → CreateRequest := fun _ => createCall letterCoder [107] [97]

/-- The object before the requests. -/
def onceObject : Object := Hunk.daemon.createdBy (againCall true)

/-- The object after one request. -/
def twiceObject : Object := Hunk.daemon.updatedBy onceObject (againCall true)

/-- The object after both requests. -/
def thriceObject : Object := Hunk.daemon.updatedBy twiceObject (againCall false)

/-- A store in the directory `/data` with the digests of the id, the texts of the three objects and
their patches. -/
def againStore : FFStore :=
  FFStore.initialise (.ofDigests
    [([], digest
        0xcf83e1357eefb8bdf1542850d66d8007d620e4050b5715dc83f4a921d36ce9ce
        0x47d0d13c5d85f2b0ff8318d2877eec2f63b931bd47417a81a538327af927da3e),
      (ascii "@@ -0,0 +1 @@\n+a\n", digest
        0x4c0a1b70c37781dfc95b58e7a7a5f7bf4d605b09b3cbbc13dc5763ffa637fb98
        0xb31b649dc8011a4044e9726e4d6d462deec415a3027d65c396599bb7edfe7562),
      ([107], digest
        0x2af8a9104b3f64ed640d8c7e298d2d480f03a3610cbc2b33474321ec59024a48
        0x592ea8545e41e09d5d1108759df48ede0054f225df39d4f0f312450e0aa9dd25),
      (Hunk.letterLibrary.save onceObject, digest
        0xbf89a74f9ae07b60af59a513658414e7e8d734273e0e6b5b3a05b90aef014ba0
        0x2d4e1eb3787381f7bdf7ded504f394cb45d9e5214d1f957f17b798fd28f77ae5),
      (Hunk.letterLibrary.save twiceObject, digest
        0x7cce9d2a6d296f89ecfc504c898a30482ff2be5ebde32ffa460d32bf3aae9b41
        0xf2a32ccb6049ff6d59cc5bde91ba134e5e3e30de60b25864f4041e9ffd8d5763),
      (Hunk.letterLibrary.save thriceObject, digest
        0x95b35c8bf5001e8d3f32fb7441a94cdda8359b7bd4825be2c9667aeade798109
        0x43827dad06b002865034cc2105a44de30f267f94fb8ad1ad61f0592ea1a35eee)])
    [[100, 97, 116, 97]] validPath_data

/-- The daemon over this store. -/
def againDaemon : Daemon := againStore.daemon FFStore.plainPlatform Hunk.letterLibrary

/-- The world in which the object is stored. -/
def againWorld : World :=
  ((againStore.kvPut [107] (Hunk.letterLibrary.save onceObject)).run againStore.fresh).state

/-- The texts of the three objects. -/
def againTexts : List Bytes :=
  [Hunk.letterLibrary.save onceObject, Hunk.letterLibrary.save twiceObject,
    Hunk.letterLibrary.save thriceObject]

/-- The texts have different hashes and are short, and no request makes another text. -/
theorem againTexts_fit :
    CollisionFree againStore.sha againTexts ∧ (∀ text ∈ againTexts, text.length < 2 ^ 32) ∧
      ∀ who,
        againDaemon.library.save (againDaemon.updatedBy onceObject (againCall who)) ∈ againTexts ∧
        againDaemon.library.save (againDaemon.createdBy (againCall who)) ∈ againTexts ∧
        againDaemon.library.save (againDaemon.updatedBy
          (againDaemon.updatedBy onceObject (againCall who)) (againCall !who)) ∈ againTexts := by
  decide +kernel

/-- The object is stored, and the two requests ask for an update of it. -/
theorem contended_again : Contended againDaemon letterCoder againCall onceObject
    (fun held world => FFStore.HoldsKey againStore {text | text ∈ againTexts} [107] held world.tree)
    againWorld := by
  obtain ⟨hfree, hsizes, htexts⟩ := againTexts_fit
  have hinj : Set.InjOn againStore.sha.hash {text | text ∈ againTexts} :=
    fun left hleft right hright => hfree left hleft right hright
  have hkey : HexId (validateKey againStore.sha [107]) := hexId_validateKey _ (by decide)
  have honce : Hunk.letterLibrary.save onceObject ∈ {text | text ∈ againTexts} := List.mem_cons_self
  refine ⟨⟨_, _, rfl, againStore.keeps FFStore.plainPlatform hinj hsizes hkey, htexts⟩,
    fun who => ⟨(valid_createCall letterCoder [97] (by decide)).json, rfl⟩, fun _ => ⟨rfl, rfl⟩, ?_⟩
  obtain ⟨after, hrun, hafter⟩ :=
    (againStore.initial_fresh.holdsKey {text | text ∈ againTexts} [107]).put hinj hkey honce
  rw [againWorld, hrun]
  exact ⟨_, hafter, by simp, fun text htext => List.mem_singleton.1 htext⟩

/-- Both threads have returned true. -/
def bothReturned (config : Config KvOp.Answer Exception Bool World) : Bool :=
  match config.thread true, config.thread false with
  | .returned true, .returned true => true
  | _, _ => false

/-- What `bothReturned` says of each thread. -/
theorem eq_returned_of_bothReturned {config : Config KvOp.Answer Exception Bool World}
    (h : bothReturned config = true) (who : Bool) : config.thread who = .returned true := by
  unfold bothReturned at h
  split at h
  · cases who with
    | true => assumption
    | false => assumption
  · simp at h

/-- Both handlers return true when they run in turn, and when both load the object before either
removes it. -/
theorem bothReturned_again : ∀ schedule ∈
    [[true, true, true, false, false, false], [true, false, true, true, false, false]],
    ((Config.run (KvOp.perform againDaemon.plugins) schedule
      (againDaemon.bothHandlers againCall againWorld)).map bothReturned) = some true := by
  decide +kernel

/-- The two requests served in turn. -/
theorem serialized_again : ∃ last,
    Config.run (KvOp.perform againDaemon.plugins) [true, true, true, false, false, false]
        (againDaemon.bothHandlers againCall againWorld) = some last ∧
      Serialized againDaemon letterCoder againCall onceObject againWorld last := by
  have htest : ((Config.run (KvOp.perform againDaemon.plugins)
      [true, true, true, false, false, false]
      (againDaemon.bothHandlers againCall againWorld)).map bothReturned) = some true :=
    bothReturned_again _ List.mem_cons_self
  obtain ⟨last, hrun, hlast⟩ := Option.map_eq_some_iff.1 htest
  have hended (who : Bool) : (last.thread who).Ended := by
    rw [eq_returned_of_bothReturned hlast who]
    trivial
  exact ⟨last, hrun, (serialized_iff_serial contended_again hrun hended).2 ⟨true, 3, 3, rfl⟩⟩

/-- Both handlers load the object before either removes it; both report success, and one of the two
updates is lost. -/
theorem update_lost_again : ∃ last,
    Config.run (KvOp.perform againDaemon.plugins) [true, false, true, true, false, false]
        (againDaemon.bothHandlers againCall againWorld) = some last ∧
      (∀ who, last.thread who = .returned true) ∧
      ¬ Serialized againDaemon letterCoder againCall onceObject againWorld last := by
  have htest : ((Config.run (KvOp.perform againDaemon.plugins)
      [true, false, true, true, false, false]
      (againDaemon.bothHandlers againCall againWorld)).map bothReturned) = some true :=
    bothReturned_again _ (List.mem_cons_of_mem _ List.mem_cons_self)
  obtain ⟨last, hrun, hlast⟩ := Option.map_eq_some_iff.1 htest
  have hreturned := eq_returned_of_bothReturned hlast
  have hended (who : Bool) : (last.thread who).Ended := by
    rw [hreturned]
    trivial
  refine ⟨last, hrun, hreturned, fun hserialized => ?_⟩
  obtain ⟨who, first, second, hschedule⟩ :=
    contended_again.serial_of_serialized hrun hended hserialized
  rcases first with _ | _ | first
  · rcases second with _ | _ | second <;> cases who <;> simp [List.replicate_succ] at hschedule
  · rcases second with _ | _ | second <;> cases who <;> simp [List.replicate_succ] at hschedule
  · cases who <;> simp [List.replicate_succ] at hschedule

end AnarchNet
