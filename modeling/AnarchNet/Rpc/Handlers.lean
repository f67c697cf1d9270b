import AnarchNet.Db

/-!
# The handlers of the key-value and object methods

Each handler takes the request and yields the value it returns together with the response. The
branches follow `rpc_manager.cc`.
-/

namespace AnarchNet

open FileSystem Json

namespace Rpc

/-- The answer to a request that is not valid. -/
def reject (request : Value) (error : Bytes) : Storage (Bool × Value) := do
  let response ← createErrorResponse request error
  return (false, response.json)

/-- The answer to a request whose call failed, with a text in the field `error`. -/
def fail (request : Value) (text : Bytes) : Storage (Bool × Value) := do
  let response ← createErrorResponse request []
  return (false, { response with error := text }.json)

/-- The answer to a request whose call succeeded. -/
def succeed (request : Value) (data : List (Bytes × Value)) : Storage (Bool × Value) := do
  let response ← createResponse request
  return (true, { response with data := data }.json)

/-- A call that succeeded is answered with its data. -/
theorem IsCall.run_succeed {request : Value} {params : List (Bytes × Value)}
    (h : IsCall request params) : ∃ id, ∀ data world, (succeed request data).run world =
      .ok (true, Response.json { id := id, data := data, error := [], err := none }) world := by
  obtain ⟨id, hresponse⟩ := h.run_createResponse
  exact ⟨id, fun data world => by
    simp only [succeed, EStateM.run_bind, hresponse, EStateM.run_pure]⟩

end Rpc

open Rpc

namespace AnStore

variable (plugins : List KvPlugin) (base64 : Base64)

/-- `(*kv_res)[key]`: a missing key reads as the empty string. -/
def resultAt (result : KvResMap) (key : Bytes) : Bytes := (result.lookup key).getD []

/-- `anStore::kv_get`. -/
def kvGet (request : Value) : Storage (Bool × Value) := do
  let (ok, error) ← valid request [(ascii "key", .strType)]
  if ok then
    let key ← paramStr request (ascii "key")
    let (found, result) ← ModuleManager.kvGet plugins key []
    if found then
      succeed request [(ascii "content", .str (base64.encode (resultAt result key)))]
    else fail request (ascii "kv.get failed")
  else reject request error

/-- `anStore::kv_put`. -/
def kvPut (request : Value) : Storage (Bool × Value) := do
  let (ok, error) ← valid request [(ascii "key", .strType), (ascii "value", .strType)]
  if ok then
    let content ← decodeBase64 base64 request (ascii "value")
    let key ← paramStr request (ascii "key")
    if ← ModuleManager.kvPut plugins key content then succeed request []
    else fail request (ascii "kv.put failed")
  else reject request error

/-- `anStore::kv_remove`. -/
def kvRemove (request : Value) : Storage (Bool × Value) := do
  let (ok, error) ← valid request [(ascii "key", .strType)]
  if ok then
    let key ← paramStr request (ascii "key")
    if ← ModuleManager.kvRemove plugins key then succeed request []
    else fail request (ascii "kv.remove failed")
  else reject request error

end AnStore

namespace LocalStorage

variable (daemon : Daemon) (base64 : Base64)

/-- The answer to an object request whose call failed, with a text in the field `err`. -/
def failObject (request : Value) (text : Bytes) : Storage (Bool × Value) := do
  let response ← createErrorResponse request []
  return (false, { response with err := some text }.json)

/-- The end of `CreateObject` for an object that was just created: it is stored once more. -/
def storeCreated (request : Value) (object : Db.Object) : Storage (Bool × Value) := do
  if ← daemon.createObject object then succeed request [(ascii "id", .str object.id)]
  else failObject request (ascii "create object failed")

/-- The branch of `CreateObject` for a custom id: an update of an object that is there, or a new
object. -/
def createWithId (now : Nat) (request : Value) (customId : Bytes) : Storage (Bool × Value) := do
  let (found, object) ← daemon.getObjectHead customId .new
  let content ← decodeBase64 base64 request (ascii "content")
  if found then
    let (stored, object) ← daemon.updateObject object now content
    if stored then succeed request [(ascii "id", .str object.id)]
    else failObject request (ascii "update object failed")
  else
    let (_, object) ← daemon.create object now content customId
    storeCreated daemon request object

/-- `LocalStorage::CreateObject` at a time. -/
def createObject (now : Nat) (request : Value) : Storage (Bool × Value) := do
  let (ok, error) ← valid request [(ascii "content", .strType)]
  if ok then
    match ← param request (ascii "id") with
    | .str customId => createWithId daemon base64 now request customId
    | _ => do
        let content ← decodeBase64 base64 request (ascii "content")
        let (_, object) ← daemon.createAnonymous .new now content
        storeCreated daemon request object
  else reject request error

/-- `LocalStorage::GetObject`. A full answer carries no content. -/
def getObject (request : Value) : Storage (Bool × Value) := do
  let (ok, error) ← valid request [(ascii "id", .strType)]
  if ok then
    let id ← paramStr request (ascii "id")
    let (found, object) ← daemon.getObjectHead id .new
    if found then
      let params ← access (request.field (ascii "params"))
      let full ←
        if ← access (params.contains (ascii "full")) then do
          let flag ← access (params.field (ascii "full"))
          access flag.getBool
        else pure false
      if full then do
        -- the response that carries the object's id is shadowed and lost
        succeed request []
      else succeed request [(ascii "content", .str (base64.encode object.head))]
    else fail request (ascii "get object failed")
  else reject request error

/-- The plugin connected to the file signals: `store_file` with the path of a file, and `get_file`
with the id of one, which may change the state that the plugin keeps in memory. -/
structure FilePlugin (κ : Type) where
  storeFile : Bytes → Storage (Bool × Bytes)
  getFile : κ → Bytes → Storage (Bool × Bytes × κ)

variable {κ : Type} (files : FilePlugin κ)

/-- `LocalStorage::file_put`. -/
def filePut (request : Value) : Storage (Bool × Value) := do
  let (ok, error) ← valid request [(ascii "path", .strType)]
  if ok then
    let path ← paramStr request (ascii "path")
    let (stored, id) ← files.storeFile path
    if stored then succeed request [(ascii "id", .str id)]
    else fail request (ascii "store file failed")
  else reject request error

/-- `LocalStorage::file_get`, with the state of the plugin before and after. -/
def fileGet (state : κ) (request : Value) : Storage ((Bool × Value) × κ) := do
  let (ok, error) ← valid request [(ascii "id", .strType)]
  if ok then
    let id ← paramStr request (ascii "id")
    let (found, path, after) ← files.getFile state id
    if found then return (← succeed request [(ascii "path", .str path)], after)
    else return (← fail request (ascii "get file failed"), after)
  else return (← reject request error, state)

end LocalStorage

/-- The methods that answer their requests, by the names of their handlers. -/
inductive Method where
  | filePut
  | fileGet
  | createObject
  | getObject
  | kvGet
  | kvPut
  | kvRemove
  deriving DecidableEq

/-- What the handlers reach: the daemon's objects and key-value plugins, the coder, the file plugin
with its state, and the time. -/
structure Service (κ : Type) where
  daemon : Daemon
  base64 : Base64
  files : LocalStorage.FilePlugin κ
  state : κ
  now : Nat

namespace Service

variable {κ : Type} (service : Service κ)

/-- A handler with the state of the file plugin after it. -/
def serve (request : Value) : Method → Storage ((Bool × Value) × κ)
  | .filePut => do return (← LocalStorage.filePut service.files request, service.state)
  | .fileGet => LocalStorage.fileGet service.files service.state request
  | .createObject => do
      return (← LocalStorage.createObject service.daemon service.base64 service.now request,
        service.state)
  | .getObject => do
      return (← LocalStorage.getObject service.daemon service.base64 request, service.state)
  | .kvGet => do
      return (← AnStore.kvGet service.daemon.plugins service.base64 request, service.state)
  | .kvPut => do
      return (← AnStore.kvPut service.daemon.plugins service.base64 request, service.state)
  | .kvRemove => do return (← AnStore.kvRemove service.daemon.plugins request, service.state)

end Service

/-- The rules of each handler for the parameters of its requests. -/
def Method.rules : Method → Parameters
  | .filePut => [(ascii "path", .strType)]
  | .fileGet => [(ascii "id", .strType)]
  | .createObject => [(ascii "content", .strType)]
  | .getObject => [(ascii "id", .strType)]
  | .kvGet => [(ascii "key", .strType)]
  | .kvPut => [(ascii "key", .strType), (ascii "value", .strType)]
  | .kvRemove => [(ascii "key", .strType)]

end AnarchNet
