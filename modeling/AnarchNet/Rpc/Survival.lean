import AnarchNet.Blockstore.Throws
import AnarchNet.FFStore.Throws
import AnarchNet.Rpc.Recreation
import AnarchNet.Rpc.Replies

/-!
# Which requests the daemon survives

Nothing catches what a handler throws, so the daemon ends with the first handler that does.
`survives_iff` says for every request and every state that requests can lead to whether the handler
returns: the request must have a number as its id, and parameters unless the number is 0, and what
the stores hold must allow the calls that the handler makes.
-/

namespace AnarchNet

open FileSystem Json EStateM

namespace Rpc

/-! ## Requests -/

/-- The request is an object with the version `2.0`. -/
def Versioned (request : Value) : Prop :=
  ∃ fields, request = .obj fields ∧ fields.lookup (ascii "jsonrpc") = some (.str (ascii "2.0"))

/-- The id of a request, if it is a number. -/
def idNumber (request : Value) : Option Int :=
  (request.field (ascii "id")).bind Value.getInt

/-- The request has a number as its id and, unless the number is 0, an object of parameters. -/
def Shaped (request : Value) : Prop :=
  ∃ number, idNumber request = some number ∧
    (number ≠ 0 → ∃ params, request.field (ascii "params") = some (.obj params))

section Requests

variable {request : Value} {world : World}

/-- A response can be made exactly if the id is a number. -/
theorem ends_createResponse_iff :
    Ends (createResponse request) world ↔ (idNumber request).isSome := by
  rw [createResponse, idNumber]
  cases request.field (ascii "id") with
  | none => simp [Ends, access]
  | some id =>
      rw [ends_bind_iff (run_access_some id world), Option.bind_some]
      cases id.getInt with
      | none => simp [Ends, access]
      | some number => exact iff_of_true ⟨_, world, rfl⟩ rfl

/-- An error can be answered exactly if the id is a number. -/
theorem ends_createErrorResponse_iff (error : Bytes) :
    Ends (createErrorResponse request error) world ↔ (idNumber request).isSome :=
  (ends_bind_of_forall (fun _ last => ⟨_, last, rfl⟩) world).trans ends_createResponse_iff

/-- So can a request be turned away. -/
theorem ends_reject_iff (error : Bytes) :
    Ends (reject request error) world ↔ (idNumber request).isSome :=
  (ends_bind_of_forall (fun _ last => ⟨_, last, rfl⟩) world).trans
    (ends_createErrorResponse_iff error)

/-- So can a failure be answered. -/
theorem ends_fail_iff (text : Bytes) :
    Ends (fail request text) world ↔ (idNumber request).isSome :=
  (ends_bind_of_forall (fun _ last => ⟨_, last, rfl⟩) world).trans (ends_createErrorResponse_iff [])

/-- So can a failure to store an object. -/
theorem ends_failObject_iff (text : Bytes) :
    Ends (LocalStorage.failObject request text) world ↔ (idNumber request).isSome :=
  (ends_bind_of_forall (fun _ last => ⟨_, last, rfl⟩) world).trans (ends_createErrorResponse_iff [])

/-- So can a success. -/
theorem ends_succeed_iff (data : List (Bytes × Value)) :
    Ends (succeed request data) world ↔ (idNumber request).isSome :=
  (ends_bind_of_forall (fun _ last => ⟨_, last, rfl⟩) world).trans ends_createResponse_iff

/-- The loop over the rules returns if there are parameters. -/
theorem ends_validParams (params : List (Bytes × Value)) (rules : Parameters) (world : World) :
    Ends (validParams (.obj params) rules) world := by
  induction rules with
  | nil => exact ⟨_, world, rfl⟩
  | cons rule rules ih =>
      rw [← Prod.eta rule, validParams]
      refine (ends_bind_iff (run_access_some _ world)).2 ?_
      by_cases htype : ((params.lookup rule.1).getD .null).type ≠ rule.2
      · rw [if_pos htype]
        exact ⟨_, world, rfl⟩
      · rw [if_neg htype]
        exact ih

/-- Without parameters the loop over the rules returns only if there is no rule. -/
theorem ends_validParams_iff {rules : Parameters} (hrules : rules ≠ []) (params : Value)
    (world : World) :
    Ends (validParams params rules) world ↔ ∃ fields, params = .obj fields := by
  constructor
  · rintro ⟨checked, last, hrun⟩
    obtain ⟨rule, rest, rfl⟩ := List.exists_cons_of_ne_nil hrules
    rw [← Prod.eta rule, validParams] at hrun
    obtain ⟨value, middle, hvalue, -⟩ := run_bind_eq_ok hrun
    obtain ⟨fields, rfl, -⟩ := field_eq_some (run_access_eq_ok hvalue).1
    exact ⟨fields, rfl⟩
  · rintro ⟨fields, rfl⟩
    exact ends_validParams fields rules world

/-- The test of an id: it is not a number, or it is 0. -/
theorem turned_iff (id : Value) :
    (id.isNull = true ∨ id.type ≠ .intType ∨ id.getInt = some 0) ↔
      id.getInt = none ∨ id.getInt = some 0 := by
  cases id <;> simp [Value.isNull, Value.type, Value.getInt]

/-- The checks of a request with the right version turn it away for its id, or they return exactly
if there are parameters. -/
theorem run_valid_cases {rules : Parameters} (hrules : rules ≠ []) (h : Versioned request)
    (world : World) :
    ((idNumber request = none ∨ idNumber request = some 0) ∧
        ∃ error, (valid request rules).run world = .ok (false, error) world) ∨
      ∃ number, idNumber request = some number ∧ number ≠ 0 ∧
        (Ends (valid request rules) world ↔
          ∃ params, request.field (ascii "params") = some (.obj params)) := by
  obtain ⟨fields, rfl, hversion⟩ := h
  obtain ⟨id, hid⟩ : ∃ id, (Value.obj fields).field (ascii "id") = some id := ⟨_, rfl⟩
  obtain ⟨params, hparams⟩ : ∃ params, (Value.obj fields).field (ascii "params") = some params :=
    ⟨_, rfl⟩
  have hjsonrpc : (Value.obj fields).field (ascii "jsonrpc") = some (.str (ascii "2.0")) := by
    simp [Value.field, Value.getObj, hversion]
  have hpass : ¬ ((Value.str (ascii "2.0")).isNull = true ∨
      (Value.str (ascii "2.0")).type ≠ .strType ∨
        (Value.str (ascii "2.0")).getStr ≠ some (ascii "2.0")) := by
    simp [Value.isNull, Value.type, Value.getStr]
  rw [idNumber, hid, Option.bind_some]
  by_cases hturned : id.isNull = true ∨ id.type ≠ .intType ∨ id.getInt = some 0
  · refine Or.inl ⟨(turned_iff id).1 hturned, ascii "no id", ?_⟩
    simp only [valid, hjsonrpc, hid, run_bind, run_access_some, if_neg hpass, if_pos hturned,
      run_pure]
  · have hnumber := mt (turned_iff id).2 hturned
    rw [not_or] at hnumber
    obtain ⟨number, hsome⟩ := Option.ne_none_iff_exists'.1 hnumber.1
    refine Or.inr ⟨number, hsome, fun hzero => hnumber.2 (hsome.trans (congrArg some hzero)), ?_⟩
    have hvalid : (valid (.obj fields) rules).run world = (validParams params rules).run world := by
      simp only [valid, hjsonrpc, hid, hparams, run_bind, run_access_some, if_neg hpass,
        if_neg hturned]
    rw [Ends, hvalid, hparams]
    exact (ends_validParams_iff hrules params world).trans (by simp)

/-- A handler that begins with its checks returns exactly if the request has the right shape and,
where the request passes, the rest of the handler returns. -/
theorem ends_checked_iff {α : Type} {rules : Parameters} {body : Storage α}
    {fits : List (Bytes × Value) → Prop} (turned : Bytes → Storage α) (hrules : rules ≠ [])
    (h : Versioned request)
    (hturned : ∀ error, Ends (turned error) world ↔ (idNumber request).isSome)
    (hbody : ∀ params, IsCall request params →
      (∀ rule ∈ rules, ((params.lookup rule.1).getD .null).type = rule.2) →
        (Ends body world ↔ fits params)) :
    Ends (valid request rules >>= fun checked =>
        if checked.1 = true then body else turned checked.2) world ↔
      Shaped request ∧ ∀ params, IsCall request params →
        (∀ rule ∈ rules, ((params.lookup rule.1).getD .null).type = rule.2) → fits params := by
  have hpasses : (∀ params, IsCall request params →
      (∀ rule ∈ rules, ((params.lookup rule.1).getD .null).type = rule.2) → fits params) ↔
        (WellFormed request rules → Ends body world) := by
    constructor
    · rintro hfits ⟨params, hcall, htypes⟩
      exact (hbody params hcall htypes).2 (hfits params hcall htypes)
    · exact fun hends params hcall htypes =>
        (hbody params hcall htypes).1 (hends ⟨params, hcall, htypes⟩)
  rw [hpasses]
  rcases run_valid_cases hrules h world with ⟨hid, error, hvalid⟩ | ⟨number, hid, hnumber, hends⟩
  · have hnot : ¬ WellFormed request rules := fun hwell =>
      Bool.false_ne_true ((run_valid_iff hrules hvalid).2 hwell)
    rw [ends_bind_iff hvalid, if_neg (by simp), hturned]
    rcases hid with hid | hid
    · simp [Shaped, hid]
    · simp [Shaped, hid, hnot]
  · have hshaped : Shaped request ↔ Ends (valid request rules) world := by
      simp [Shaped, hid, hnumber, hends]
    rw [hshaped]
    by_cases hvalid : Ends (valid request rules) world
    · rw [and_iff_right hvalid]
      obtain ⟨⟨ok, error⟩, middle, hrun⟩ := hvalid
      obtain rfl := (preserves_valid request rules).ok hrun
      have hwell := run_valid_iff hrules hrun
      rw [ends_bind_iff hrun]
      cases ok with
      | true => simp [hwell.1 rfl]
      | false =>
          have hnot : ¬ WellFormed request rules := fun h => Bool.false_ne_true (hwell.2 h)
          simp [hnot, hturned, hid]
    · refine iff_of_false ?_ fun hboth => hvalid hboth.1
      rintro ⟨answer, last, hrun⟩
      obtain ⟨checked, middle, hchecked, -⟩ := run_bind_eq_ok hrun
      exact hvalid ⟨checked, middle, hchecked⟩

variable {params : List (Bytes × Value)} {name : Bytes}

/-- The id of a request that passes the checks is a number. -/
theorem IsCall.isSome_idNumber (h : IsCall request params) : (idNumber request).isSome := by
  obtain ⟨fields, number, rfl, -, hid, htype, -, -⟩ := h.json
  have hnumber : idNumber (.obj fields) = number.getInt := by
    simp [idNumber, Value.field, Value.getObj, hid]
  rw [hnumber]
  cases number <;> simp [Value.type] at htype <;> rfl

/-- Whatever a call says, it can be answered. -/
theorem IsCall.ends_answer (h : IsCall request params) (c : Prop) [Decidable c]
    (data : List (Bytes × Value)) (text : Bytes) (world : World) :
    Ends (if c then succeed request data else fail request text) world := by
  split
  · exact (ends_succeed_iff data).2 h.isSome_idNumber
  · exact (ends_fail_iff text).2 h.isSome_idNumber

/-- So can the calls of `CreateObject`. -/
theorem IsCall.ends_answerObject (h : IsCall request params) (c : Prop) [Decidable c]
    (data : List (Bytes × Value)) (text : Bytes) (world : World) :
    Ends (if c then succeed request data else LocalStorage.failObject request text) world := by
  split
  · exact (ends_succeed_iff data).2 h.isSome_idNumber
  · exact (ends_failObject_iff text).2 h.isSome_idNumber

end Requests

end Rpc

open Rpc

/-! ## Handlers -/

/-- The modules of the daemon: the flat-file store is connected to the signals for keys, the block
store to those for files. In both directories of blocks there is room for the path of a hash. -/
structure Modules where
  keys : FFStore
  platform : Platform
  library : Db.Library
  base64 : Base64
  files : Blockstore
  pubText : Bytes
  keys_room : textLength keys.dataDir + 131 < pathMax
  files_room : textLength files.uniqueDir + 131 < pathMax

namespace Modules

variable (modules : Modules) (memory : Memory) (source : Bytes → Option Bytes) (now : Nat)
  (cache : FileCache)

/-- The flat-file store as a plugin. -/
def keyPlugin : KvPlugin where
  kvPut := modules.keys.kvPutWithin
  kvGet := modules.keys.kvGetWithin modules.platform
  kvRemove := modules.keys.kvRemoveWithin modules.platform

/-- The block store connected to the file signals. -/
def filePlugin : LocalStorage.FilePlugin FileCache where
  storeFile path := modules.files.storeFile memory (source path)
  getFile cache id := do
    let (found, _, after) ← modules.files.getFileWithin memory cache id
    return (found, modules.pubText ++ id, after)

/-- The object code of the daemon. -/
def daemon : Daemon where
  sha := modules.keys.sha
  library := modules.library
  plugins := [modules.keyPlugin]

/-- The handlers at a time, with the bytes of the files that can be read, and the cache of public
files. -/
def service : Service FileCache where
  daemon := modules.daemon
  base64 := modules.base64
  files := modules.filePlugin memory source
  state := cache
  now := now

/-- What `get_object_head` finds under an id. -/
def head (tree : FileTree) (id : Bytes) : Bool × Db.Object :=
  modules.daemon.loadFirst (modules.keys.listed modules.platform tree id)
    { Db.Object.new with id := id }

/-- An object can be stored, once or again. -/
def StoreFits (again : Bool) (tree : FileTree) (object : Db.Object) : Prop :=
  modules.keys.PutFits again tree object.id (modules.library.save object)

/-- A new object can be created: its patch is made and it can be stored twice. -/
def NewFits (tree : FileTree) (object : Db.Object) (content id : Bytes) : Prop :=
  modules.daemon.Makes [] content ∧
    modules.StoreFits false tree (modules.daemon.created object now content id) ∧
      modules.StoreFits true tree (modules.daemon.created object now content id)

/-- An object can be updated: its patch is made, it can be removed and then be stored. -/
def UpdateFits (tree : FileTree) (object : Db.Object) (content : Bytes) : Prop :=
  modules.daemon.Makes object.head content ∧
    ∃ cleared, modules.keys.removedWithin tree object.id = some cleared ∧
      modules.StoreFits false cleared (modules.daemon.updated object now content)

/-- The calls of `CreateObject` for an id: the object is got, and one that is there is updated, or
a new one is created. -/
def CreateFits (tree : FileTree) (id content : Bytes) : Prop :=
  modules.keys.GetFits modules.platform tree id ∧
    if (modules.head tree id).1 = true then
      modules.UpdateFits now tree (modules.head tree id).2 content
    else modules.NewFits now tree (modules.head tree id).2 content id

/-- What the stores hold allows the calls that a handler makes for these parameters. -/
def Fits (tree : FileTree) (params : List (Bytes × Value)) : Method → Prop
  | .filePut => True
  | .fileGet => modules.files.GetFitsWithin memory tree cache (textOf params (ascii "id"))
  | .createObject =>
      match params.lookup (ascii "id") with
      | some (.str id) =>
          modules.CreateFits now tree id (modules.base64.decode (textOf params (ascii "content")))
      | _ =>
          let content := modules.base64.decode (textOf params (ascii "content"))
          modules.NewFits now tree .new content (modules.daemon.derivedId content)
  | .getObject =>
      -- the flag is only read when there is an object
      modules.keys.GetFits modules.platform tree (textOf params (ascii "id")) ∧
        ((modules.head tree (textOf params (ascii "id"))).1 = true →
          ∀ full, params.lookup (ascii "full") = some full → full.type = .boolType)
  | .kvGet => modules.keys.GetFits modules.platform tree (textOf params (ascii "key"))
  | .kvPut =>
      modules.keys.PutFits false tree (textOf params (ascii "key"))
        (modules.base64.decode (textOf params (ascii "value")))
  | .kvRemove => (modules.keys.removedWithin tree (textOf params (ascii "key"))).isSome

/-- The request has the right shape, and where it passes the checks the stores allow its calls. -/
def Survives (tree : FileTree) (request : Value) (method : Method) : Prop :=
  Shaped request ∧ ∀ params, IsCall request params →
    (∀ rule ∈ method.rules, ((params.lookup rule.1).getD .null).type = rule.2) →
      modules.Fits memory now cache tree params method

section Handlers

variable {modules memory source now cache} {request : Value} {world : World}

/-- A handler that keeps the state of the file plugin returns exactly if its program does. -/
theorem ends_kept_iff {κ : Type} {kept : κ} {program : Storage (Bool × Value)} :
    Ends (do return (← program, kept) : Storage ((Bool × Value) × κ)) world ↔ Ends program world :=
  ends_bind_of_forall (fun _ last => ⟨_, last, rfl⟩) world

/-- The signals of the daemon call the flat-file store. -/
theorem kvGet_daemon (key : Bytes) : ModuleManager.kvGet modules.daemon.plugins key [] =
    modules.keys.kvGetWithin modules.platform key := ModuleManager.kvGet_singleton _ _ _

theorem kvPut_daemon (key value : Bytes) :
    ModuleManager.kvPut modules.daemon.plugins key value = modules.keys.kvPutWithin key value :=
  ModuleManager.kvPut_singleton _ _ _

theorem kvRemove_daemon (key : Bytes) : ModuleManager.kvRemove modules.daemon.plugins key =
    modules.keys.kvRemoveWithin modules.platform key := ModuleManager.kvRemove_singleton _ _

/-- `kv_get` returns exactly if its control does not flow off the end for good. -/
theorem ends_kvGet_iff (h : Versioned request) :
    Ends (AnStore.kvGet modules.daemon.plugins modules.base64 request) world ↔
      modules.Survives memory now cache world.tree request .kvGet := by
  refine ends_checked_iff (reject request) Method.kvGet.rules_ne_nil h ends_reject_iff
    fun params hcall htypes => ?_
  have hkey := lookup_textOf (htypes (ascii "key", .strType) (by simp))
  refine (ends_bind_iff (hcall.run_paramStr hkey world)).trans ?_
  refine (ends_bind_of_forall (fun found last => hcall.ends_answer _ _ _ last) world).trans ?_
  rw [kvGet_daemon]
  exact modules.keys.ends_kvGetWithin_iff modules.platform (textOf params (ascii "key")) world

/-- `kv_put` returns exactly if the value can be put. -/
theorem ends_kvPut_iff (h : Versioned request) (hlinks : modules.keys.HashLinks world.tree) :
    Ends (AnStore.kvPut modules.daemon.plugins modules.base64 request) world ↔
      modules.Survives memory now cache world.tree request .kvPut := by
  refine ends_checked_iff (reject request) Method.kvPut.rules_ne_nil h ends_reject_iff
    fun params hcall htypes => ?_
  have hkey := lookup_textOf (htypes (ascii "key", .strType) (by simp))
  have hvalue := htypes (ascii "value", .strType) (by simp)
  refine (ends_bind_iff (hcall.run_decode modules.base64 hvalue world)).trans ?_
  refine (ends_bind_iff (hcall.run_paramStr hkey world)).trans ?_
  refine (ends_bind_of_forall (fun stored last => hcall.ends_answer _ _ _ last) world).trans ?_
  rw [kvPut_daemon]
  exact FFStore.ends_kvPutWithin_iff hlinks

/-- `kv_remove` returns exactly if the key can be removed. -/
theorem ends_kvRemove_iff (h : Versioned request) :
    Ends (AnStore.kvRemove modules.daemon.plugins request) world ↔
      modules.Survives memory now cache world.tree request .kvRemove := by
  refine ends_checked_iff (reject request) Method.kvRemove.rules_ne_nil h ends_reject_iff
    fun params hcall htypes => ?_
  have hkey := lookup_textOf (htypes (ascii "key", .strType) (by simp))
  refine (ends_bind_iff (hcall.run_paramStr hkey world)).trans ?_
  refine (ends_bind_of_forall (fun removed last => hcall.ends_answer _ _ _ last) world).trans ?_
  rw [kvRemove_daemon]
  exact modules.keys.ends_kvRemoveWithin_iff modules.platform (textOf params (ascii "key")) world

/-- `file_put` returns for every request of the right shape. -/
theorem ends_filePut_iff (h : Versioned request) :
    Ends (LocalStorage.filePut (modules.filePlugin memory source) request) world ↔
      modules.Survives memory now cache world.tree request .filePut := by
  refine ends_checked_iff (reject request) Method.filePut.rules_ne_nil h ends_reject_iff
    fun params hcall htypes => ?_
  refine iff_of_true ?_ trivial
  have hpath := lookup_textOf (htypes (ascii "path", .strType) (by simp))
  obtain ⟨answer, last, hput⟩ := modules.files.ends_storeFile memory
    (source (textOf params (ascii "path"))) world
  refine (ends_bind_iff (hcall.run_paramStr hpath world)).2 ?_
  refine (ends_bind_iff hput).2 ?_
  exact hcall.ends_answer _ _ _ last

/-- `file_get` returns exactly if the file can be got. -/
theorem ends_fileGet_iff (h : Versioned request) :
    Ends (LocalStorage.fileGet (modules.filePlugin memory source) cache request) world ↔
      modules.Survives memory now cache world.tree request .fileGet := by
  refine ends_checked_iff (fun error => do return (← reject request error, cache))
    Method.fileGet.rules_ne_nil h (fun error => ?_) fun params hcall htypes => ?_
  · exact ends_kept_iff.trans (ends_reject_iff error)
  have hid := lookup_textOf (htypes (ascii "id", .strType) (by simp))
  refine (ends_bind_iff (hcall.run_paramStr hid world)).trans ?_
  refine (ends_bind_of_forall (fun found last => ?_) world).trans ?_
  · obtain ⟨good, path, after⟩ := found
    cases good with
    | true => exact ends_kept_iff.2 ((ends_succeed_iff _).2 hcall.isSome_idNumber)
    | false => exact ends_kept_iff.2 ((ends_fail_iff _).2 hcall.isSome_idNumber)
  · refine (ends_bind_of_forall (fun _ last => ⟨_, last, rfl⟩) world).trans ?_
    exact modules.files.ends_getFileWithin_iff memory cache (textOf params (ascii "id")) world

/-- `get_object_head` changes nothing. It finds the head of the id, or its control flows off the end
of `kv_get` for good. -/
theorem run_getObjectHead_cases (modules : Modules) (id : Bytes) (world : World) :
    ∃ last, last.tree = world.tree ∧
      (modules.keys.GetFits modules.platform world.tree id ∧
          (modules.daemon.getObjectHead id .new).run world = .ok (modules.head world.tree id) last ∨
        ¬ modules.keys.GetFits modules.platform world.tree id ∧
          (modules.daemon.getObjectHead id .new).run world = .error .undefined last) := by
  obtain ⟨last, htree, ⟨hflows, hnil, hrun⟩ | ⟨hflows, found, hrun, hnone⟩⟩ :=
    modules.keys.run_kvGetWithin_listed modules.platform id world
  · refine ⟨last, htree, ?_⟩
    simp only [Daemon.getObjectHead, run_bind, kvGet_daemon, hrun, head, hnil]
    rcases FFStore.flowed_cases modules.platform with ⟨found, hfound, hflow⟩ | ⟨hnone, hflow⟩
    · refine Or.inl ⟨fun _ => hfound ▸ rfl, ?_⟩
      rw [hflow, run_pure]
      cases found <;> rfl
    · refine Or.inr ⟨fun hfits => ?_, by rw [hflow]; rfl⟩
      have hsome := hfits hflows
      simp [hnone] at hsome
  · refine ⟨last, htree, Or.inl ⟨fun hflow => absurd hflow hflows, ?_⟩⟩
    simp only [Daemon.getObjectHead, run_bind, kvGet_daemon, hrun]
    cases found with
    | true => rfl
    | false =>
        rw [head, hnone rfl]
        rfl

/-- `GetObject` returns exactly if getting the object comes back and its flag, where an object is
found, is a Boolean. -/
theorem ends_getObject_iff (h : Versioned request) :
    Ends (LocalStorage.getObject modules.daemon modules.base64 request) world ↔
      modules.Survives memory now cache world.tree request .getObject := by
  refine ends_checked_iff (reject request) Method.getObject.rules_ne_nil h ends_reject_iff
    fun params hcall htypes => ?_
  have hid := lookup_textOf (htypes (ascii "id", .strType) (by simp))
  refine (ends_bind_iff (hcall.run_paramStr hid world)).trans ?_
  rw [Fits]
  obtain ⟨last, -, ⟨hfits, hhead⟩ | ⟨hfits, hhead⟩⟩ :=
    modules.run_getObjectHead_cases (textOf params (ascii "id")) world
  swap
  · exact iff_of_false (not_ends_bind hhead) fun hboth => hfits hboth.1
  rw [and_iff_right hfits]
  refine (ends_bind_iff hhead).trans ?_
  obtain ⟨⟨found, object⟩, hfound⟩ :
    ∃ found, modules.head world.tree (textOf params (ascii "id")) = found := ⟨_, rfl⟩
  rw [hfound]
  cases found with
  | false => exact iff_of_true ((ends_fail_iff _).2 hcall.isSome_idNumber) (by simp)
  | true =>
      have hsucceed : ∀ data, Ends (succeed request data) last := fun data =>
        (ends_succeed_iff data).2 hcall.isSome_idNumber
      have hparams : request.field (ascii "params") = some (.obj params) := by
        obtain ⟨fields, number, rfl, -, -, -, -, hlookup⟩ := hcall.json
        simp [Value.field, Value.getObj, hlookup]
      simp only [if_true, hparams, forall_const]
      refine (ends_bind_iff (run_access_some _ last)).trans ?_
      refine (ends_bind_iff (run_access_some _ last)).trans ?_
      by_cases hthere : (params.lookup (ascii "full")).isSome = true
      · obtain ⟨full, hfull⟩ := Option.isSome_iff_exists.1 hthere
        have hfield : (Value.obj params).field (ascii "full") = some full := by
          simp [Value.field, Value.getObj, hfull]
        simp only [hfield, hfull, Option.some.injEq, forall_eq']
        refine (ends_bind_iff (run_access_some full last)).trans ?_
        cases full with
        | bool flag =>
            refine iff_of_true ((ends_bind_iff (run_access_some flag last)).2 ?_) rfl
            cases flag with
            | true => exact hsucceed _
            | false => exact hsucceed _
        | _ => exact iff_of_false (not_ends_bind rfl) (by simp [Value.type])
      · rw [if_neg hthere, Option.not_isSome_iff_eq_none.1 hthere]
        exact iff_of_true (hsucceed _) (by simp)

/-- An object is stored exactly if it can be. -/
theorem ends_storeObject_iff (world : World) (hlinks : modules.keys.HashLinks world.tree)
    (object : Db.Object) :
    Ends (modules.daemon.createObject object) world ↔
      modules.StoreFits false world.tree object := by
  rw [Daemon.createObject, kvPut_daemon]
  exact FFStore.ends_kvPutWithin_iff hlinks

/-- An object is stored and then stored again exactly if it can be. -/
theorem ends_storeCreated_iff {params : List (Bytes × Value)} (hcall : IsCall request params)
    (hlinks : modules.keys.HashLinks world.tree) (object : Db.Object) (content id : Bytes) :
    Ends (do
        let (_, object) ← modules.daemon.create object now content id
        LocalStorage.storeCreated modules.daemon request object) world ↔
      modules.NewFits now world.tree object content id := by
  rw [NewFits]
  by_cases hmakes : modules.daemon.Makes [] content
  swap
  · have hthrows : (modules.daemon.create object now content id).run world =
        .error .undefined world := by
      rw [Daemon.create, run_bind, Daemon.run_makePatch_not hmakes]
    exact iff_of_false (not_ends_bind hthrows) fun hboth => hmakes hboth.1
  rw [and_iff_right hmakes]
  have hcreate := Daemon.run_create hmakes object now id world
  have hfirst := ends_storeObject_iff world hlinks (modules.daemon.created object now content id)
  by_cases hstores : modules.StoreFits false world.tree
    (modules.daemon.created object now content id)
  swap
  · refine iff_of_false ?_ fun hboth => hstores hboth.1
    rintro ⟨answer, last, hrun⟩
    obtain ⟨made, middle, hmade, -⟩ := run_bind_eq_ok hrun
    rw [hcreate] at hmade
    obtain ⟨stored, after, hstored, -⟩ := run_bind_eq_ok hmade
    exact hstores (hfirst.1 ⟨stored, after, hstored⟩)
  rw [and_iff_right hstores]
  obtain ⟨stored, last, hstored⟩ := hfirst.2 hstores
  have hput := hstored
  rw [Daemon.createObject, kvPut_daemon] at hput
  have hlast : modules.keys.HashLinks last.tree := by
    have hstate := hlinks.kvPutWithin (modules.daemon.created object now content id).id
      (modules.daemon.library.save (modules.daemon.created object now content id))
    rwa [hput] at hstate
  have hmade : (modules.daemon.create object now content id).run world =
      .ok (stored, modules.daemon.created object now content id) last := by
    rw [hcreate]
    simp only [run_bind, hstored, run_pure]
  refine (ends_bind_iff hmade).trans ?_
  refine (ends_bind_of_forall (fun stored last => hcall.ends_answerObject _ _ _ last) last).trans ?_
  exact (ends_storeObject_iff last hlast _).trans (FFStore.putFits_again_iff hlinks hput)

/-- An object is updated exactly if its patch is made, its key can be removed and the new text can
be put then. -/
theorem ends_updateObject_iff (hlinks : modules.keys.HashLinks world.tree) (object : Db.Object)
    (content : Bytes) :
    Ends (modules.daemon.updateObject object now content) world ↔
      modules.UpdateFits now world.tree object content := by
  rw [UpdateFits]
  by_cases hmakes : modules.daemon.Makes object.head content
  swap
  · exact iff_of_false (not_ends_bind (Daemon.run_makePatch_not hmakes world))
      fun hboth => hmakes hboth.1
  rw [and_iff_right hmakes, Ends, Daemon.run_updateObject hmakes]
  refine (ends_bind_of_forall (fun _ last => ⟨_, last, rfl⟩) world).trans ?_
  rw [Daemon.save, Daemon.deleteObject, kvRemove_daemon]
  cases hremoved : modules.keys.removedWithin world.tree object.id with
  | none =>
      obtain ⟨last, hrun⟩ := FFStore.run_kvRemoveWithin_of_not_removed modules.platform hremoved
      exact iff_of_false (not_ends_bind hrun) (by simp)
  | some cleared =>
      obtain ⟨log, hrun⟩ := FFStore.run_kvRemoveWithin_of_removed modules.platform hremoved
      have hcleared := hlinks.kvRemoveWithin modules.platform object.id
      rw [hrun] at hcleared
      refine (ends_bind_iff hrun).trans ?_
      refine (ends_storeObject_iff ⟨cleared, log⟩ hcleared _).trans ?_
      simp

/-- The branch of `CreateObject` for an id. -/
theorem ends_createWithId_iff {params : List (Bytes × Value)} (hcall : IsCall request params)
    (htype : ((params.lookup (ascii "content")).getD .null).type = .strType)
    (hlinks : modules.keys.HashLinks world.tree) (id : Bytes) :
    Ends (LocalStorage.createWithId modules.daemon modules.base64 now request id) world ↔
      modules.CreateFits now world.tree id
        (modules.base64.decode (textOf params (ascii "content"))) := by
  rw [CreateFits]
  obtain ⟨last, htree, ⟨hfits, hhead⟩ | ⟨hfits, hhead⟩⟩ :=
    modules.run_getObjectHead_cases id world
  swap
  · exact iff_of_false (not_ends_bind hhead) fun hboth => hfits hboth.1
  have hlast : modules.keys.HashLinks last.tree := htree.symm ▸ hlinks
  rw [and_iff_right hfits]
  refine (ends_bind_iff hhead).trans ?_
  rw [← htree]
  obtain ⟨⟨found, object⟩, hfound⟩ : ∃ found, modules.head last.tree id = found := ⟨_, rfl⟩
  rw [hfound]
  refine (ends_bind_iff (hcall.run_decode modules.base64 htype last)).trans ?_
  cases found with
  | true =>
      refine (ends_bind_of_forall (fun updated after => ?_) last).trans
        (ends_updateObject_iff hlast object _)
      exact hcall.ends_answerObject _ _ _ after
  | false => exact ends_storeCreated_iff hcall hlast object _ id

/-- The branch of `CreateObject` without an id. -/
theorem ends_createAnonymous_iff (now : Nat) {params : List (Bytes × Value)}
    (hcall : IsCall request params)
    (htype : ((params.lookup (ascii "content")).getD .null).type = .strType)
    (hlinks : modules.keys.HashLinks world.tree) :
    Ends (do
        let content ← decodeBase64 modules.base64 request (ascii "content")
        let (_, object) ← modules.daemon.createAnonymous .new now content
        LocalStorage.storeCreated modules.daemon request object) world ↔
      modules.NewFits now world.tree .new (modules.base64.decode (textOf params (ascii "content")))
        (modules.daemon.derivedId (modules.base64.decode (textOf params (ascii "content")))) :=
  (ends_bind_iff (hcall.run_decode modules.base64 htype world)).trans
    (ends_storeCreated_iff hcall hlinks .new _ _)

/-- `CreateObject` returns exactly if its object can be updated or stored. -/
theorem ends_createObject_iff (h : Versioned request)
    (hlinks : modules.keys.HashLinks world.tree) :
    Ends (LocalStorage.createObject modules.daemon modules.base64 now request) world ↔
      modules.Survives memory now cache world.tree request .createObject := by
  refine ends_checked_iff (reject request) Method.createObject.rules_ne_nil h ends_reject_iff
    fun params hcall htypes => ?_
  have hcontent := htypes (ascii "content", .strType) (by simp)
  have hanonymous := ends_createAnonymous_iff now hcall hcontent hlinks
  refine (ends_bind_iff (hcall.run_param (ascii "id") world)).trans ?_
  rw [Fits]
  cases hid : params.lookup (ascii "id") with
  | none => exact hanonymous
  | some value =>
      cases value with
      | str id => exact ends_createWithId_iff hcall hcontent hlinks id
      | _ => exact hanonymous

end Handlers

/-- A handler returns exactly if the daemon survives its request. -/
theorem ends_serve_iff (request : Value) (method : Method) (world : World)
    (h : Versioned request) (hlinks : modules.keys.HashLinks world.tree) :
    Ends ((modules.service memory source now cache).serve request method) world ↔
      modules.Survives memory now cache world.tree request method := by
  cases method with
  | filePut => exact ends_kept_iff.trans (ends_filePut_iff h)
  | fileGet => exact ends_fileGet_iff h
  | createObject => exact ends_kept_iff.trans (ends_createObject_iff h hlinks)
  | getObject => exact ends_kept_iff.trans (ends_getObject_iff h)
  | kvGet => exact ends_kept_iff.trans (ends_kvGet_iff h)
  | kvPut => exact ends_kept_iff.trans (ends_kvPut_iff h hlinks)
  | kvRemove => exact ends_kept_iff.trans (ends_kvRemove_iff h)

end Modules

/-! ## Runs -/

section Replies

variable (request : Value)

/-- Making a response leaves the world alone. -/
theorem Rpc.preserves_createResponse : Preserves Eq (createResponse request) :=
  Preserves.bind (preserves_access _) fun _ => Preserves.bind (preserves_access _) fun _ =>
    Preserves.pure _

/-- So does answering an error. -/
theorem Rpc.preserves_createErrorResponse (error : Bytes) :
    Preserves Eq (createErrorResponse request error) :=
  Preserves.bind (preserves_createResponse request) fun _ => Preserves.pure _

/-- So does turning a request away. -/
theorem Rpc.preserves_reject (error : Bytes) : Preserves Eq (reject request error) :=
  Preserves.bind (preserves_createErrorResponse request _) fun _ => Preserves.pure _

/-- So does answering a failure. -/
theorem Rpc.preserves_fail (text : Bytes) : Preserves Eq (fail request text) :=
  Preserves.bind (preserves_createErrorResponse request _) fun _ => Preserves.pure _

/-- So does answering that an object could not be stored. -/
theorem Rpc.preserves_failObject (text : Bytes) :
    Preserves Eq (LocalStorage.failObject request text) :=
  Preserves.bind (preserves_createErrorResponse request _) fun _ => Preserves.pure _

/-- So does answering a success. -/
theorem Rpc.preserves_succeed (data : List (Bytes × Value)) :
    Preserves Eq (succeed request data) :=
  Preserves.bind (preserves_createResponse request) fun _ => Preserves.pure _

/-- So does reading a parameter. -/
theorem Rpc.preserves_param (name : Bytes) : Preserves Eq (param request name) :=
  Preserves.bind (preserves_access _) fun _ => preserves_access _

/-- So does reading a string. -/
theorem Rpc.preserves_paramStr (name : Bytes) : Preserves Eq (paramStr request name) :=
  Preserves.bind (preserves_param request name) fun _ => preserves_access _

/-- So does decoding a string. -/
theorem Rpc.preserves_decodeBase64 (base64 : Base64) (name : Bytes) :
    Preserves Eq (decodeBase64 base64 request name) := by
  refine Preserves.bind (preserves_param request name) fun value => ?_
  cases value with
  | str text => exact Preserves.pure _
  | _ => exact Preserves.throw _

/-- So does making a patch. -/
theorem Daemon.preserves_makePatch (daemon : Daemon) (old new : Bytes) :
    Preserves Eq (daemon.makePatch old new : Storage Bytes) := by
  rw [Daemon.makePatch]
  cases daemon.library.patch old new with
  | none => exact Preserves.throw _
  | some patch => exact Preserves.pure _

end Replies

namespace Service

variable {κ : Type} {service : Service κ} {R : World → World → Prop} [Std.Refl R] [IsTrans World R]

/-- What the calls to the modules preserve, every handler does. -/
theorem preserves_serve
    (hput : ∀ key value, Preserves R (ModuleManager.kvPut service.daemon.plugins key value))
    (hget : ∀ key, Preserves R (ModuleManager.kvGet service.daemon.plugins key []))
    (hremove : ∀ key, Preserves R (ModuleManager.kvRemove service.daemon.plugins key))
    (hstore : ∀ path, Preserves R (service.files.storeFile path))
    (hfile : ∀ id, Preserves R (service.files.getFile service.state id)) (request : Value)
    (method : Method) : Preserves R (service.serve request method) := by
  have hkept : ∀ {program : Storage (Bool × Value)} (kept : κ), Preserves R program →
      Preserves R (do return (← program, kept) : Storage ((Bool × Value) × κ)) :=
    fun kept hprogram => Preserves.bind hprogram fun _ => Preserves.pure _
  have hreject : ∀ error, Preserves R (reject request error) := fun error =>
    (preserves_reject request error).of_eq
  have hfail : ∀ text, Preserves R (fail request text) := fun text =>
    (preserves_fail request text).of_eq
  have hsucceed : ∀ data, Preserves R (succeed request data) := fun data =>
    (preserves_succeed request data).of_eq
  have hstr : ∀ name, Preserves R (paramStr request name) := fun name =>
    (preserves_paramStr request name).of_eq
  have hchecked : ∀ rules, Preserves R (valid request rules) := fun rules =>
    (preserves_valid request rules).of_eq
  have hfailObject : ∀ text, Preserves R (LocalStorage.failObject request text) := fun text =>
    (preserves_failObject request text).of_eq
  have hdecode : ∀ name, Preserves R (decodeBase64 service.base64 request name) := fun name =>
    (preserves_decodeBase64 request _ name).of_eq
  -- the calls of the object code
  have hhead : ∀ id, Preserves R (service.daemon.getObjectHead id .new) := fun id =>
    Preserves.bind (hget id) fun _ => Preserves.ite (fun _ => Preserves.pure _) fun _ =>
      Preserves.pure _
  have hmake : ∀ old new, Preserves R (service.daemon.makePatch old new) := fun old new =>
    (Daemon.preserves_makePatch service.daemon old new).of_eq
  have hupdate : ∀ object content, Preserves R (service.daemon.updateObject object service.now
      content) := fun object content =>
    Preserves.bind (hmake _ _) fun _ => Preserves.bind (Preserves.bind (hremove _) fun _ =>
      Preserves.ite (fun _ => hput _ _) fun _ => Preserves.pure _) fun _ => Preserves.pure _
  have hcreate : ∀ object content id, Preserves R (do
      let (_, object) ← service.daemon.create object service.now content id
      LocalStorage.storeCreated service.daemon request object) := fun object content id =>
    Preserves.bind (Preserves.bind (hmake _ _) fun _ => Preserves.bind (hput _ _) fun _ =>
      Preserves.pure _) fun made => Preserves.bind (hput _ _) fun _ =>
        Preserves.ite (fun _ => hsucceed _) fun _ => hfailObject _
  cases method with
  | filePut =>
      refine hkept _ (Preserves.bind (hchecked _) fun checked => Preserves.ite (fun _ => ?_)
        fun _ => hreject _)
      exact Preserves.bind (hstr _) fun path => Preserves.bind (hstore path) fun stored =>
        Preserves.ite (fun _ => hsucceed _) fun _ => hfail _
  | fileGet =>
      refine Preserves.bind (hchecked _) fun checked => Preserves.ite (fun _ => ?_)
        fun _ => hkept _ (hreject _)
      exact Preserves.bind (hstr _) fun id => Preserves.bind (hfile id) fun found =>
        Preserves.ite (fun _ => hkept _ (hsucceed _)) fun _ => hkept _ (hfail _)
  | createObject =>
      refine hkept _ (Preserves.bind (hchecked _) fun checked => Preserves.ite (fun _ => ?_)
        fun _ => hreject _)
      refine Preserves.bind (preserves_param request _).of_eq fun id => ?_
      cases id with
      | str id =>
          refine Preserves.bind (hhead id) fun loaded => Preserves.bind (hdecode _) fun content =>
            Preserves.ite (fun _ => ?_) fun _ => hcreate _ _ _
          exact Preserves.bind (hupdate _ _) fun updated =>
            Preserves.ite (fun _ => hsucceed _) fun _ => hfailObject _
      | _ => exact Preserves.bind (hdecode _) fun content => hcreate _ _ _
  | getObject =>
      refine hkept _ (Preserves.bind (hchecked _) fun checked => Preserves.ite (fun _ => ?_)
        fun _ => hreject _)
      refine Preserves.bind (hstr _) fun id => Preserves.bind (hhead id) fun loaded =>
        Preserves.ite (fun _ => ?_) fun _ => hfail _
      refine Preserves.bind (preserves_access _).of_eq fun params =>
        Preserves.bind (preserves_access _).of_eq fun there => Preserves.ite (fun _ => ?_) fun _ => ?_
      · exact Preserves.bind (preserves_access _).of_eq fun flag =>
          Preserves.bind (preserves_access _).of_eq fun full =>
            Preserves.ite (fun _ => hsucceed _) fun _ => hsucceed _
      · exact Preserves.bind (Preserves.pure false) fun full =>
          Preserves.ite (fun _ => hsucceed _) fun _ => hsucceed _
  | kvGet =>
      refine hkept _ (Preserves.bind (hchecked _) fun checked => Preserves.ite (fun _ => ?_)
        fun _ => hreject _)
      exact Preserves.bind (hstr _) fun key => Preserves.bind (hget key) fun found =>
        Preserves.ite (fun _ => hsucceed _) fun _ => hfail _
  | kvPut =>
      refine hkept _ (Preserves.bind (hchecked _) fun checked => Preserves.ite (fun _ => ?_)
        fun _ => hreject _)
      exact Preserves.bind (hdecode _) fun content => Preserves.bind (hstr _) fun key =>
        Preserves.bind (hput key content) fun stored =>
          Preserves.ite (fun _ => hsucceed _) fun _ => hfail _
  | kvRemove =>
      refine hkept _ (Preserves.bind (hchecked _) fun checked => Preserves.ite (fun _ => ?_)
        fun _ => hreject _)
      exact Preserves.bind (hstr _) fun key => Preserves.bind (hremove key) fun removed =>
        Preserves.ite (fun _ => hsucceed _) fun _ => hfail _

end Service

namespace Modules

/-- A call breaks no link. -/
def Unbreaking (store : FFStore) (before after : World) : Prop :=
  store.HashLinks before.tree → store.HashLinks after.tree

instance (store : FFStore) : Std.Refl (Unbreaking store) := ⟨fun _ h => h⟩

instance (store : FFStore) : IsTrans World (Unbreaking store) :=
  ⟨fun _ _ _ h h' hlinks => h' (h hlinks)⟩

/-- No request breaks a link, also when its handler throws. -/
theorem unbreaking_serve (modules : Modules) (memory : Memory) (source : Bytes → Option Bytes)
    (now : Nat) (cache : FileCache) (request : Value) (method : Method) :
    Preserves (Unbreaking modules.keys)
      ((modules.service memory source now cache).serve request method) := by
  refine Service.preserves_serve (fun key value => ?_) (fun key => ?_) (fun key => ?_)
    (fun path => ?_) (fun id => ?_) request method
  · rw [show ModuleManager.kvPut (modules.service memory source now cache).daemon.plugins key value =
      modules.keys.kvPutWithin key value from kvPut_daemon key value]
    exact fun world hlinks => hlinks.kvPutWithin key value
  · rw [show ModuleManager.kvGet (modules.service memory source now cache).daemon.plugins key [] =
      modules.keys.kvGetWithin modules.platform key from kvGet_daemon key]
    intro world hlinks
    have hstate : ((modules.keys.kvGetWithin modules.platform key).run world).state.tree =
        world.tree := by
      obtain ⟨last, htree, ⟨-, -, hrun⟩ | ⟨-, found, hrun, -⟩⟩ :=
        modules.keys.run_kvGetWithin_listed modules.platform key world
      · rw [hrun, ← FFStore.preserves_flowed (R := Eq) modules.platform last, htree]
      · rw [hrun, Result.state_ok, htree]
    exact hstate.symm ▸ hlinks
  · rw [show ModuleManager.kvRemove (modules.service memory source now cache).daemon.plugins key =
      modules.keys.kvRemoveWithin modules.platform key from kvRemove_daemon key]
    exact fun world hlinks => hlinks.kvRemoveWithin modules.platform key
  · exact fun world hlinks => hlinks.mono
      (modules.files.keeps_storeFile memory (source path) world).oldLinks
  · have hget : Preserves OldLinks
        ((modules.service memory source now cache).files.getFile cache id) :=
      Preserves.bind (modules.files.oldLinks_getFileWithin memory cache id) fun _ =>
        Preserves.pure _
    exact fun world hlinks => hlinks.mono (hget world)

/-- The states that requests lead to. A handler that throws ends the daemon, which begins again with
an empty cache; while it is not running anything may happen to the tree but new links. -/
inductive Reaches (modules : Modules) (start : World) : World → FileCache → Prop where
  | start : Reaches modules start start []
  | answered {world last : World} {cache next : FileCache} {answer : Bool × Value}
      (memory : Memory) (source : Bytes → Option Bytes) (now : Nat) (request : Value)
      (method : Method) : Reaches modules start world cache →
        ((modules.service memory source now cache).serve request method).run world =
          .ok (answer, next) last → Reaches modules start last next
  | crashed {world last : World} {cache : FileCache} {fault : Exception} (memory : Memory)
      (source : Bytes → Option Bytes) (now : Nat) (request : Value) (method : Method) :
        Reaches modules start world cache →
        ((modules.service memory source now cache).serve request method).run world =
          .error fault last → Reaches modules start last []
  | restarted {world after : World} {cache : FileCache} : Reaches modules start world cache →
      OldLinks world after → Reaches modules start after []

/-- In every state that is reached from a tree without links, links are named by hashes and lead to
blocks. -/
theorem Reaches.hashLinks {modules : Modules} {start world : World} {cache : FileCache}
    (h : modules.Reaches start world cache)
    (hstart : ∀ path target, start.tree.get path ≠ some (.link target)) :
    modules.keys.HashLinks world.tree := by
  induction h with
  | start => exact ⟨fun path target hlink => absurd hlink (hstart path target),
      fun stage _ target => hstart stage target⟩
  | @answered _ _ cache _ _ memory source now request method _ hrun ih =>
      have hlast := modules.unbreaking_serve memory source now cache request method _ ih
      rwa [hrun] at hlast
  | @crashed _ _ cache _ memory source now request method _ hrun ih =>
      have hlast := modules.unbreaking_serve memory source now cache request method _ ih
      rwa [hrun] at hlast
  | restarted _ hold ih => exact ih.mono hold

/-- The modules over the stores with the digests of some letters, on a platform that does not come
back from the end of `kv_get`. -/
def letterModules : Modules where
  keys := FFStore.letterStore
  platform := { FFStore.plainPlatform with flowOff := none }
  library := DiffMatchPatch.library fun _ _ => none
  base64 := Libb64.coder
  files := Blockstore.letterStore
  pubText := ascii "/data/blockstore/public/"
  keys_room := by decide
  files_room := by decide

end Modules

end AnarchNet
