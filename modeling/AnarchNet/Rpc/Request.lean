import AnarchNet.FFStore.Basic
import AnarchNet.Json.Value

/-!
# Requests, responses and modules

`RPC_Request` and `RPC_Response` of `rpc_manager.cc`, base64, and the part of the module manager
through which the handlers reach the key-value plugins.
-/

namespace AnarchNet

open FileSystem Json

/-- The bytes of a text literal. -/
def ascii (text : String) : Bytes := text.toList.map fun char => UInt8.ofNat char.toNat

/-- An accessor of a JSON value throws when the value has another type. -/
def access {α : Type} : Option α → Storage α
  | some value => return value
  | none => throw .runtimeError

/-- The base64 coder of libb64. -/
structure Base64 where
  encode : Bytes → Bytes
  decode : Bytes → Bytes
  decode_encode : ∀ text, decode (encode text) = text

namespace Rpc

/-- `Parameters`: the required type of each parameter, in the order of the names. -/
abbrev Parameters := List (Bytes × ValueType)

/-- The loop of `valid` over the rules: the answer and the error text. -/
def validParams (params : Value) : Parameters → Storage (Bool × Bytes)
  | [] => return (true, [])
  | (name, type) :: rest => do
      let value ← access (params.field name)
      if value.type ≠ type then return (false, name ++ ascii " has the wrong type")
      else validParams params rest

/-- `RPC_Request::valid`: the answer and the error text. -/
def valid (request : Value) (rules : Parameters) : Storage (Bool × Bytes) := do
  let jsonrpc ← access (request.field (ascii "jsonrpc"))
  if jsonrpc.isNull ∨ jsonrpc.type ≠ .strType ∨ jsonrpc.getStr ≠ some (ascii "2.0") then
    return (false, ascii "jsonrpc != 2.0")
  else
    let id ← access (request.field (ascii "id"))
    if id.isNull ∨ id.type ≠ .intType ∨ id.getInt = some 0 then return (false, ascii "no id")
    else
      let params ← access (request.field (ascii "params"))
      validParams params rules

/-- `params()[name]`. -/
def param (request : Value) (name : Bytes) : Storage Value := do
  let params ← access (request.field (ascii "params"))
  access (params.field name)

/-- `params()[name].get_str()`. -/
def paramStr (request : Value) (name : Bytes) : Storage Bytes := do
  let value ← param request name
  access value.getStr

/-- `decode_base64`. -/
def decodeBase64 (base64 : Base64) (request : Value) (name : Bytes) : Storage Bytes := do
  let value ← param request name
  match value with
  | .str text => return base64.decode text
  | _ => throw (.message (name ++ ascii " not found"))

/-- `RPC_Response`: the request's id, the data of the result, and the two error fields. -/
structure Response where
  id : Int
  data : List (Bytes × Value)
  error : Bytes
  err : Option Bytes

/-- `json`: the fields in the order in which they are added. -/
def Response.json (response : Response) : Value :=
  .obj ([(ascii "jsonrpc", .str (ascii "2.0")), (ascii "result", .obj response.data),
    (ascii "error", .str response.error), (ascii "id", .int response.id)] ++
    (response.err.toList.map fun text => (ascii "err", .str text)))

/-- `createResponse`. -/
def createResponse (request : Value) : Storage Response := do
  let id ← access (request.field (ascii "id"))
  let number ← access id.getInt
  return { id := number, data := [], error := [], err := none }

/-- `createErrorResponse`. -/
def createErrorResponse (request : Value) (error : Bytes) : Storage Response := do
  let response ← createResponse request
  return { response with err := some error }

/-- A request that passes the checks common to all methods, with these parameters. -/
structure IsCall (request : Value) (params : List (Bytes × Value)) : Prop where
  json : ∃ fields number, request = .obj fields ∧
    fields.lookup (ascii "jsonrpc") = some (.str (ascii "2.0")) ∧
    fields.lookup (ascii "id") = some number ∧ number.type = .intType ∧
    number.getInt ≠ some 0 ∧ fields.lookup (ascii "params") = some (.obj params)

section Calls

variable {request : Value} {params : List (Bytes × Value)}

@[simp] theorem run_access_some {α : Type} (value : α) (world : World) :
    (access (some value)).run world = .ok value world := rfl

/-- The parameters pass when they have the required types. -/
theorem run_validParams {rules : Parameters} (world : World)
    (h : ∀ rule ∈ rules, ((params.lookup rule.1).getD .null).type = rule.2) :
    (validParams (.obj params) rules).run world = .ok (true, []) world := by
  induction rules with
  | nil => rfl
  | cons rule rules ih =>
      have htype := h rule (by simp)
      have ih' := ih fun other hother => h other (by simp [hother])
      rw [← Prod.eta rule, validParams]
      simp only [Value.field, Value.getObj, Option.map_some, EStateM.run_bind, run_access_some]
      rw [if_neg (by simpa using htype), ih']

/-- A request with parameters of the required types is valid. -/
theorem IsCall.run_valid (h : IsCall request params) {rules : Parameters} (world : World)
    (hrules : ∀ rule ∈ rules, ((params.lookup rule.1).getD .null).type = rule.2) :
    (valid request rules).run world = .ok (true, []) world := by
  obtain ⟨fields, number, rfl, hjsonrpc, hid, htype, hnumber, hparams⟩ := h.json
  have hnull : number.isNull = false := by simp [Value.isNull, htype]
  simp only [valid, Value.field, Value.getObj, Option.map_some, EStateM.run_bind, run_access_some,
    hjsonrpc, hid, hparams, Option.getD_some]
  rw [if_neg (by simp [Value.isNull, Value.type, Value.getStr])]
  simp only [EStateM.run_bind, run_access_some]
  rw [if_neg (by simp [hnull, htype, hnumber])]
  simp only [EStateM.run_bind, run_access_some, run_validParams world hrules]

/-- A parameter is looked up. -/
theorem IsCall.run_param (h : IsCall request params) (name : Bytes) (world : World) :
    (param request name).run world = .ok ((params.lookup name).getD .null) world := by
  obtain ⟨fields, number, rfl, -, -, -, -, hparams⟩ := h.json
  simp [param, Value.field, Value.getObj, hparams]

/-- A string parameter is read. -/
theorem IsCall.run_paramStr (h : IsCall request params) {name text : Bytes}
    (hname : params.lookup name = some (.str text)) (world : World) :
    (paramStr request name).run world = .ok text world := by
  simp [paramStr, h.run_param, hname, Value.getStr]

/-- A base64 parameter is decoded. -/
theorem IsCall.run_decodeBase64 (h : IsCall request params) {base64 : Base64}
    {name content : Bytes} (hname : params.lookup name = some (.str (base64.encode content)))
    (world : World) : (decodeBase64 base64 request name).run world = .ok content world := by
  simp [decodeBase64, h.run_param, hname, base64.decode_encode]

/-- The response carries the id of the request. -/
theorem IsCall.run_createResponse (h : IsCall request params) :
    ∃ id, ∀ world, (createResponse request).run world =
      .ok { id := id, data := [], error := [], err := none } world := by
  obtain ⟨fields, number, rfl, -, hid, htype, -, -⟩ := h.json
  obtain ⟨id, hnumber⟩ : ∃ id, number.getInt = some id := by
    cases number <;> simp [Value.type] at htype <;> simp [Value.getInt]
  exact ⟨id, fun world => by
    simp [createResponse, Value.field, Value.getObj, hid, hnumber]⟩

end Calls

end Rpc

/-- A plugin connected to the three key-value signals. -/
structure KvPlugin where
  kvPut : Bytes → Bytes → Storage Bool
  kvGet : Bytes → Storage (Bool × KvResMap)
  kvRemove : Bytes → Storage Bool

/-- The flat-file store as a plugin. -/
def FFStore.plugin (store : FFStore) (platform : Platform) : KvPlugin where
  kvPut := store.kvPut
  kvGet := store.kvGet platform
  kvRemove := store.kvRemove platform

/-- `res_check`: every slot is called, and one true answer is enough. -/
def resCheck : List (Storage Bool) → Storage Bool
  | [] => return false
  | slot :: rest => do
      let first ← slot
      let others ← resCheck rest
      return first || others

namespace ModuleManager

/-- The signal `kv_put`. -/
def kvPut (plugins : List KvPlugin) (key value : Bytes) : Storage Bool :=
  resCheck (plugins.map fun plugin => plugin.kvPut key value)

/-- The signal `kv_remove`. -/
def kvRemove (plugins : List KvPlugin) (key : Bytes) : Storage Bool :=
  resCheck (plugins.map fun plugin => plugin.kvRemove key)

/-- The signal `kv_get`: every slot replaces the result map. -/
def kvGet : List KvPlugin → Bytes → KvResMap → Storage (Bool × KvResMap)
  | [], _, result => return (false, result)
  | plugin :: rest, key, _ => do
      let (first, result) ← plugin.kvGet key
      let (others, result) ← kvGet rest key result
      return (first || others, result)

end ModuleManager

end AnarchNet
