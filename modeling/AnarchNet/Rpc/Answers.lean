import AnarchNet.Rpc.Objects

/-!
# What the client learns of a failure

The client hands the field `error` of a response to its caller. `error_visible_iff` says for which
requests that field is empty exactly when the handler returned true. A request that is turned away
by its checks has its text in `err`, and so has an object that could not be stored.
-/

namespace AnarchNet

open FileSystem Json EStateM

namespace Rpc

/-- The field `error` of the response is empty exactly when the handler returned true. -/
def Visible (answer : Bool × Value) : Prop :=
  answer.2.field (ascii "error") = some (.str []) ↔ answer.1 = true

/-- The request passes the checks of a handler: version, id, and a parameter of each type. -/
def WellFormed (request : Value) (rules : Parameters) : Prop :=
  ∃ params, IsCall request params ∧
    ∀ rule ∈ rules, ((params.lookup rule.1).getD .null).type = rule.2

/-! ## Parameters -/

/-- A string parameter of a request. -/
def textParam (request : Value) (name : Bytes) : Option Bytes := do
  let params ← request.field (ascii "params")
  let value ← params.field name
  value.getStr

/-- The text of a parameter that the checks found to be a string. -/
def textOf (params : List (Bytes × Value)) (name : Bytes) : Bytes :=
  ((params.lookup name).getD .null).getStr.getD []

section Parameters

variable {request : Value} {params : List (Bytes × Value)} {name : Bytes}

/-- A parameter of the right type has its text. -/
theorem lookup_textOf (h : ((params.lookup name).getD .null).type = .strType) :
    params.lookup name = some (.str (textOf params name)) := by
  rw [textOf]
  cases hlookup : params.lookup name with
  | none => simp [hlookup, Value.type] at h
  | some value =>
      cases value with
      | str text => rfl
      | _ => simp [hlookup, Value.type] at h

/-- A string parameter is decoded. -/
theorem IsCall.run_decode (h : IsCall request params) (base64 : Base64)
    (htype : ((params.lookup name).getD .null).type = .strType) (world : World) :
    (decodeBase64 base64 request name).run world =
      .ok (base64.decode (textOf params name)) world := by
  simp [decodeBase64, h.run_param, lookup_textOf htype]

/-- A string parameter of a request with parameters. -/
theorem IsCall.textParam_eq (h : IsCall request params) (name : Bytes) :
    textParam request name = ((params.lookup name).getD .null).getStr := by
  obtain ⟨fields, number, rfl, -, -, -, -, hparams⟩ := h.json
  simp [textParam, Value.field, Value.getObj, hparams]

end Parameters

/-! ## Responses -/

section Answers

variable {request : Value} {rules : Parameters}

/-- The field `error` of a response. -/
@[simp] theorem Response.field_error (response : Response) :
    response.json.field (ascii "error") = some (.str response.error) := by
  have hjsonrpc : (ascii "error" == ascii "jsonrpc") = false := by decide
  have hresult : (ascii "error" == ascii "result") = false := by decide
  simp [Response.json, Value.field, Value.getObj, List.lookup_cons, hjsonrpc, hresult]

/-- A response begins with an empty text in `error`. -/
theorem returns_createResponse (request : Value) :
    Returns (fun response : Response => response.error = []) (createResponse request) :=
  Returns.seq fun _ => Returns.seq fun _ => Returns.pure rfl

/-- An error response leaves the field `error` empty. -/
theorem returns_createErrorResponse (request : Value) (error : Bytes) :
    Returns (fun response : Response => response.error = [])
      (createErrorResponse request error) :=
  Returns.bind (returns_createResponse request) fun _ herror => Returns.pure herror

/-- A call that succeeded is answered visibly. -/
theorem returns_succeed (request : Value) (data : List (Bytes × Value)) :
    Returns (fun answer => answer.1 = true ∧ Visible answer) (succeed request data) :=
  Returns.bind (returns_createResponse request) fun _ herror =>
    Returns.pure ⟨rfl, by simp [Visible, herror]⟩

/-- A failure with a text in `error` is answered visibly. -/
theorem returns_fail (request : Value) {text : Bytes} (htext : text ≠ []) :
    Returns (fun answer => answer.1 = false ∧ Visible answer) (fail request text) :=
  Returns.seq fun _ => Returns.pure ⟨rfl, by simp [Visible, htext]⟩

/-- A request that is not valid is turned away invisibly. -/
theorem returns_reject (request : Value) (error : Bytes) :
    Returns (fun answer => answer.1 = false ∧ ¬ Visible answer) (reject request error) :=
  Returns.bind (returns_createErrorResponse request error) fun _ herror =>
    Returns.pure ⟨rfl, by simp [Visible, herror]⟩

/-- A failure with a text in `err` is answered invisibly. -/
theorem returns_failObject (request : Value) (text : Bytes) :
    Returns (fun answer => answer.1 = false ∧ ¬ Visible answer)
      (LocalStorage.failObject request text) :=
  Returns.bind (returns_createErrorResponse request []) fun _ herror =>
    Returns.pure ⟨rfl, by simp [Visible, herror]⟩

/-- An accessor that returns read a value that is there. -/
theorem run_access_eq_ok {α : Type} {option : Option α} {value : α} {world last : World}
    (h : (access option).run world = .ok value last) : option = some value ∧ last = world := by
  cases option with
  | none => exact absurd h (by simp [access])
  | some found =>
      rw [run_access_some, Result.ok.injEq] at h
      exact ⟨congrArg some h.1, h.2.symm⟩

/-- Only an object has fields. -/
theorem field_eq_some {value found : Value} {name : Bytes} (h : value.field name = some found) :
    ∃ fields, value = .obj fields ∧ found = (fields.lookup name).getD .null := by
  cases value with
  | obj fields => exact ⟨fields, rfl, by simpa [Value.field, Value.getObj] using h.symm⟩
  | _ => simp [Value.field, Value.getObj] at h

/-- A value of a type other than null is really there. -/
theorem lookup_eq_of_type {fields : List (Bytes × Value)} {name : Bytes}
    (h : ((fields.lookup name).getD .null).type ≠ .nullType) :
    fields.lookup name = some ((fields.lookup name).getD .null) := by
  cases hlookup : fields.lookup name with
  | none => simp [hlookup, Value.type] at h
  | some value => rfl

/-- Only a string is read as a string. -/
theorem getStr_eq_some {value : Value} {text : Bytes} (h : value.getStr = some text) :
    value = .str text := by
  cases value with
  | str found => exact congrArg Value.str (by simpa [Value.getStr] using h)
  | _ => simp [Value.getStr] at h

/-- Parameters that pass have the required types. -/
theorem type_of_validParams {params : List (Bytes × Value)} {error : Bytes} {world last : World}
    (h : (validParams (.obj params) rules).run world = .ok (true, error) last) :
    ∀ rule ∈ rules, ((params.lookup rule.1).getD .null).type = rule.2 := by
  induction rules with
  | nil => simp
  | cons rule rules ih =>
      rw [← Prod.eta rule, validParams] at h
      obtain ⟨value, middle, hvalue, h⟩ := run_bind_eq_ok h
      obtain ⟨hfield, rfl⟩ := run_access_eq_ok hvalue
      obtain ⟨fields, hfields, rfl⟩ := field_eq_some hfield
      obtain rfl : params = fields := by simpa using hfields
      split at h
      · simp at h
      · rename_i htype
        intro other hother
        rcases List.mem_cons.mp hother with rfl | hother
        · exact not_not.mp htype
        · exact ih h other hother

/-- Parameters that pass a rule are an object. -/
theorem obj_of_validParams {params : Value} {error : Bytes} {world last : World}
    (hrules : rules ≠ []) (h : (validParams params rules).run world = .ok (true, error) last) :
    ∃ fields, params = .obj fields := by
  cases rules with
  | nil => exact absurd rfl hrules
  | cons rule rules =>
      rw [← Prod.eta rule, validParams] at h
      obtain ⟨value, middle, hvalue, -⟩ := run_bind_eq_ok h
      obtain ⟨fields, rfl, -⟩ := field_eq_some (run_access_eq_ok hvalue).1
      exact ⟨fields, rfl⟩

/-- A request that passes is well formed. -/
theorem wellFormed_of_valid {error : Bytes} {world last : World} (hrules : rules ≠ [])
    (h : (valid request rules).run world = .ok (true, error) last) : WellFormed request rules := by
  rw [valid] at h
  obtain ⟨jsonrpc, middle, hjsonrpc, h⟩ := run_bind_eq_ok h
  obtain ⟨hfield, rfl⟩ := run_access_eq_ok hjsonrpc
  obtain ⟨fields, rfl, rfl⟩ := field_eq_some hfield
  split at h
  · simp at h
  rename_i hversion
  obtain ⟨id, middle, hid, h⟩ := run_bind_eq_ok h
  obtain ⟨hfield, rfl⟩ := run_access_eq_ok hid
  obtain ⟨fields, hfields, rfl⟩ := field_eq_some hfield
  cases hfields
  split at h
  · simp at h
  rename_i hnumber
  obtain ⟨params, middle, hparams, h⟩ := run_bind_eq_ok h
  obtain ⟨hfield, rfl⟩ := run_access_eq_ok hparams
  obtain ⟨fields, hfields, rfl⟩ := field_eq_some hfield
  cases hfields
  obtain ⟨params, hobj⟩ := obj_of_validParams hrules h
  rw [hobj] at h
  push Not at hversion hnumber
  have hstr := hversion.2.1
  have hint := hnumber.2.1
  have hobject : ((fields.lookup (ascii "params")).getD .null).type ≠ .nullType := by
    simp [hobj, Value.type]
  refine ⟨params, ⟨fields, _, rfl, ?_, lookup_eq_of_type (by simp [hint]), hint, hnumber.2.2, ?_⟩,
    type_of_validParams h⟩
  · exact (lookup_eq_of_type (by simp [hstr])).trans (congrArg some (getStr_eq_some hversion.2.2))
  · exact (lookup_eq_of_type hobject).trans (congrArg some hobj)

/-- The checks say whether the request is well formed, and change nothing. -/
theorem run_valid_iff {ok : Bool} {error : Bytes} {world last : World} (hrules : rules ≠ [])
    (h : (valid request rules).run world = .ok (ok, error) last) :
    ok = true ↔ WellFormed request rules := by
  constructor
  · rintro rfl
    exact wellFormed_of_valid hrules h
  · rintro ⟨params, hcall, htypes⟩
    rw [hcall.run_valid world htypes, Result.ok.injEq, Prod.mk.injEq] at h
    exact h.1.1.symm

/-- An accessor leaves the world alone. -/
theorem preserves_access {α : Type} (option : Option α) : Preserves Eq (access option) := by
  cases option with
  | none => exact Preserves.throw _
  | some value => exact Preserves.pure value

/-- The loop over the rules leaves the world alone. -/
theorem preserves_validParams (params : Value) (rules : Parameters) :
    Preserves Eq (validParams params rules) := by
  induction rules with
  | nil => exact Preserves.pure _
  | cons rule rules ih =>
      exact Preserves.bind (preserves_access _) fun _ =>
        Preserves.ite (fun _ => Preserves.pure _) fun _ => ih

/-- The checks leave the world alone. -/
theorem preserves_valid (request : Value) (rules : Parameters) :
    Preserves Eq (valid request rules) :=
  Preserves.bind (preserves_access _) fun _ =>
    Preserves.ite (fun _ => Preserves.pure _) fun _ =>
      Preserves.bind (preserves_access _) fun _ =>
        Preserves.ite (fun _ => Preserves.pure _) fun _ =>
          Preserves.bind (preserves_access _) fun _ => preserves_validParams _ rules

/-- A handler that returns turned the request away, or went on from the world it began in. -/
theorem checked_cases {α : Type} {body : Storage α} (turned : Bytes → Storage α) {answer : α}
    {world last : World} (hrules : rules ≠ [])
    (h : (valid request rules >>= fun checked =>
      if checked.1 = true then body else turned checked.2).run world = .ok answer last) :
    (WellFormed request rules ∧ body.run world = .ok answer last) ∨
      ¬ WellFormed request rules ∧ ∃ error, (turned error).run world = .ok answer last := by
  obtain ⟨⟨ok, error⟩, middle, hvalid, h⟩ := run_bind_eq_ok h
  obtain rfl := (preserves_valid request rules).ok hvalid
  have hiff := run_valid_iff hrules hvalid
  cases ok with
  | true => exact .inl ⟨hiff.mp rfl, h⟩
  | false => exact .inr ⟨fun hwell => Bool.noConfusion (hiff.mpr hwell), error, h⟩

end Answers

end Rpc

open Rpc

/-- Every handler has a rule. -/
theorem Method.rules_ne_nil (method : Method) : method.rules ≠ [] := by
  cases method <;> exact List.cons_ne_nil _ _

namespace Daemon

variable (daemon : Daemon) (now : Nat)

/-- The plugins take the text of an object. -/
def Stores (object : Db.Object) (world : World) : Prop :=
  ∃ after, (ModuleManager.kvPut daemon.plugins object.id (daemon.library.save object)).run world =
    .ok true after

/-- A new object is made and put, and the plugins take it when it is put again. -/
def StoresNew (object : Db.Object) (content id : Bytes) (world : World) : Prop :=
  daemon.Makes [] content ∧ ∃ stored after,
    (ModuleManager.kvPut daemon.plugins id
      (daemon.library.save (daemon.created object now content id))).run world = .ok stored after ∧
    daemon.Stores (daemon.created object now content id) after

/-- An object is updated: the plugins remove it and take its new text. -/
def StoresUpdate (object : Db.Object) (content : Bytes) (world : World) : Prop :=
  daemon.Makes object.head content ∧ ∃ after,
    (ModuleManager.kvRemove daemon.plugins object.id).run world = .ok true after ∧
    daemon.Stores (daemon.updated object now content) after

/-- The head of an id among what the plugins deliver for it. -/
def headOf (id : Bytes) (found : Bool) (listed : KvResMap) : Bool × Db.Object :=
  if found then daemon.loadFirst listed { Db.Object.new with id := id }
  else (false, { Db.Object.new with id := id })

/-- A content is stored under an id, where there may be an object, or under one of its own. -/
def StoresContent (id : Option Bytes) (content : Bytes) (world : World) : Prop :=
  match id with
  | none => daemon.StoresNew now .new content (daemon.derivedId content) world
  | some id => ∃ found listed after,
      (ModuleManager.kvGet daemon.plugins id []).run world = .ok (found, listed) after ∧
      if (daemon.headOf id found listed).1 = true then
        daemon.StoresUpdate now (daemon.headOf id found listed).2 content after
      else daemon.StoresNew now (daemon.headOf id found listed).2 content id after

variable {daemon now} {content id : Bytes} {object : Db.Object} {world : World}

/-- Getting the head of an id is reading what the plugins deliver for it. -/
theorem run_getObjectHead_eq_ok_iff {head : Bool × Db.Object} {after : World} :
    (daemon.getObjectHead id .new).run world = .ok head after ↔ ∃ found listed,
      (ModuleManager.kvGet daemon.plugins id []).run world = .ok (found, listed) after ∧
        daemon.headOf id found listed = head := by
  have hpure : ∀ found listed, (if found = true then
      return daemon.loadFirst listed { Db.Object.new with id := id }
        else return (false, { Db.Object.new with id := id }) : Storage (Bool × Db.Object)) =
      pure (daemon.headOf id found listed) := by
    intro found listed
    cases found <;> rfl
  simp only [getObjectHead, hpure, run_bind]
  cases (ModuleManager.kvGet daemon.plugins id []).run world with
  | error fault last => simp
  | ok answer last =>
      simp only [run_pure, Result.ok.injEq]
      constructor
      · rintro ⟨rfl, rfl⟩
        exact ⟨answer.1, answer.2, ⟨rfl, rfl⟩, rfl⟩
      · rintro ⟨found, listed, ⟨rfl, rfl⟩, rfl⟩
        exact ⟨rfl, rfl⟩

/-- Creating an object and storing it again. -/
theorem storesNew_iff : (∃ last, (do
      let (_, object) ← daemon.create object now content id
      daemon.createObject object : Storage Bool).run world = .ok true last) ↔
    daemon.StoresNew now object content id world := by
  rw [exists_run_bind_iff, StoresNew]
  by_cases hmakes : daemon.Makes [] content
  · rw [and_iff_right hmakes]
    constructor
    · rintro ⟨made, middle, hmade, hstores⟩
      rw [run_create hmakes] at hmade
      obtain ⟨stored, after, hput, hpure⟩ := run_bind_eq_ok hmade
      rw [run_pure, Result.ok.injEq] at hpure
      obtain ⟨rfl, rfl⟩ := hpure
      exact ⟨stored, after, hput, hstores⟩
    · rintro ⟨stored, after, hput, hstores⟩
      refine ⟨(stored, daemon.created object now content id), after, ?_, hstores⟩
      rw [run_create hmakes, run_bind, createObject]
      rw [show (daemon.created object now content id).id = id from rfl, hput]
      rfl
  · refine iff_of_false ?_ fun hboth => hmakes hboth.1
    rintro ⟨made, middle, hmade, -⟩
    rw [create, run_bind, run_makePatch_not hmakes] at hmade
    cases hmade

/-- Updating an object. -/
theorem storesUpdate_iff : (∃ last, (do
      let (stored, _) ← daemon.updateObject object now content
      return stored : Storage Bool).run world = .ok true last) ↔
    daemon.StoresUpdate now object content world := by
  rw [exists_run_bind_iff, StoresUpdate]
  by_cases hmakes : daemon.Makes object.head content
  · rw [and_iff_right hmakes]
    constructor
    · rintro ⟨updated, middle, hupdated, last, hpure⟩
      rw [run_updateObject hmakes] at hupdated
      obtain ⟨saved, after, hsave, hsaved⟩ := run_bind_eq_ok hupdated
      rw [run_pure, Result.ok.injEq] at hsaved hpure
      obtain ⟨rfl, rfl⟩ := hsaved
      obtain ⟨rfl, rfl⟩ := hpure
      obtain ⟨removed, cleared, hremove, hput⟩ := run_bind_eq_ok hsave
      cases removed with
      | true => exact ⟨cleared, hremove, _, hput⟩
      | false => cases hput
    · rintro ⟨cleared, hremove, last, hput⟩
      refine ⟨(true, daemon.updated object now content), last, ?_, last, rfl⟩
      have hsave : (daemon.save (daemon.updated object now content)).run world = .ok true last := by
        rw [save, run_bind, deleteObject]
        rw [show (daemon.updated object now content).id = object.id from rfl, hremove]
        exact hput
      rw [run_updateObject hmakes, run_bind, hsave]
      rfl
  · refine iff_of_false ?_ fun hboth => hmakes hboth.1
    rintro ⟨updated, middle, hupdated, -⟩
    rw [updateObject, run_bind, run_makePatch_not hmakes] at hupdated
    cases hupdated

end Daemon

namespace LocalStorage

variable (daemon : Daemon) (base64 : Base64) (now : Nat) (request : Value)

/-- The plugins store the content of a request for its object. -/
def StoresObject (world : World) : Prop :=
  daemon.StoresContent now (textParam request (ascii "id"))
    (base64.decode ((textParam request (ascii "content")).getD [])) world

/-- The calls of `CreateObject` to the database, and whether the last one succeeded. -/
def objectCalls : Storage Bool := do
  match ← param request (ascii "id") with
  | .str customId => do
      let (found, object) ← daemon.getObjectHead customId .new
      let content ← decodeBase64 base64 request (ascii "content")
      if found then
        let (stored, _) ← daemon.updateObject object now content
        return stored
      else
        let (_, object) ← daemon.create object now content customId
        daemon.createObject object
  | _ => do
      let content ← decodeBase64 base64 request (ascii "content")
      let (_, object) ← daemon.createAnonymous .new now content
      daemon.createObject object

variable {daemon base64 now request}

/-- They succeed exactly if the plugins store the object. -/
theorem objectCalls_iff {params : List (Bytes × Value)} (hcall : IsCall request params)
    (htype : ((params.lookup (ascii "content")).getD .null).type = .strType) (world : World) :
    (∃ last, (objectCalls daemon base64 now request).run world = .ok true last) ↔
      StoresObject daemon base64 now request world := by
  have hcontent : (textParam request (ascii "content")).getD [] =
      textOf params (ascii "content") := by rw [hcall.textParam_eq, textOf]
  have hdecode := hcall.run_decode base64 htype
  have hanonymous : (∃ last, (do
      let content ← decodeBase64 base64 request (ascii "content")
      let (_, object) ← daemon.createAnonymous .new now content
      daemon.createObject object : Storage Bool).run world = .ok true last) ↔
      daemon.StoresNew now .new (base64.decode (textOf params (ascii "content")))
        (daemon.derivedId (base64.decode (textOf params (ascii "content")))) world := by
    rw [run_bind, hdecode]
    exact Daemon.storesNew_iff
  rw [StoresObject, hcontent, hcall.textParam_eq, objectCalls, run_bind, hcall.run_param]
  cases (params.lookup (ascii "id")).getD .null with
  | str id =>
      have hrest : ∀ (head : Bool × Db.Object) (after : World), (∃ last, (do
          let content ← decodeBase64 base64 request (ascii "content")
          if head.1 then
            let (stored, _) ← daemon.updateObject head.2 now content
            return stored
          else
            let (_, object) ← daemon.create head.2 now content id
            daemon.createObject object : Storage Bool).run after = .ok true last) ↔
          if head.1 = true then
            daemon.StoresUpdate now head.2 (base64.decode (textOf params (ascii "content"))) after
          else
            daemon.StoresNew now head.2 (base64.decode (textOf params (ascii "content"))) id
              after := by
        rintro ⟨found, object⟩ after
        rw [run_bind, hdecode]
        cases found with
        | true => exact Daemon.storesUpdate_iff
        | false => exact Daemon.storesNew_iff
      refine exists_run_bind_iff.trans ⟨?_, ?_⟩
      · rintro ⟨head, after, hhead, hlast⟩
        obtain ⟨found, listed, hget, rfl⟩ := Daemon.run_getObjectHead_eq_ok_iff.1 hhead
        exact ⟨found, listed, after, hget, (hrest _ _).1 hlast⟩
      · rintro ⟨found, listed, after, hget, hstores⟩
        exact ⟨_, after, Daemon.run_getObjectHead_eq_ok_iff.2 ⟨found, listed, hget, rfl⟩,
          (hrest _ _).2 hstores⟩
  | _ => exact hanonymous

end LocalStorage

namespace Rpc

/-- The program returns what a decision does, and its answer is visible when that is true. -/
def Answers (decision : Storage Bool) (program : Storage (Bool × Value)) : Prop :=
  ∀ world answer last, program.run world = .ok answer last →
    (∃ middle, decision.run world = .ok answer.1 middle) ∧ (Visible answer ↔ answer.1 = true)

namespace Answers

/-- Two programs that begin alike. -/
theorem bind {α : Type} {first : Storage α} {decision : α → Storage Bool}
    {program : α → Storage (Bool × Value)} (h : ∀ value, Answers (decision value) (program value)) :
    Answers (first >>= decision) (first >>= program) := by
  intro world answer last hrun
  obtain ⟨value, middle, hvalue, hanswer⟩ := run_bind_eq_ok hrun
  obtain ⟨⟨after, hdecision⟩, hvisible⟩ := h value middle answer last hanswer
  exact ⟨⟨after, by rw [run_bind, hvalue]; exact hdecision⟩, hvisible⟩

/-- The answers to an object request, after whether the object was stored. -/
theorem stored (request : Value) (stored : Bool) (data : List (Bytes × Value)) (text : Bytes) :
    Answers (pure stored)
      (if stored = true then succeed request data else LocalStorage.failObject request text) := by
  intro world answer last hrun
  cases stored with
  | true =>
      obtain ⟨hreturned, hvisible⟩ := returns_succeed request data world answer last hrun
      exact ⟨⟨world, by simp [hreturned]⟩, by simp [hreturned, hvisible]⟩
  | false =>
      obtain ⟨hreturned, hvisible⟩ := returns_failObject request text world answer last hrun
      exact ⟨⟨world, by simp [hreturned]⟩, by simp [hreturned, hvisible]⟩

end Answers

/-- An object that was just created is stored once more. -/
theorem answers_storeCreated (daemon : Daemon) (request : Value) (object : Db.Object) :
    Answers (daemon.createObject object) (LocalStorage.storeCreated daemon request object) := by
  rw [← bind_pure (daemon.createObject object)]
  exact Answers.bind fun stored => Answers.stored request stored _ _

/-- `CreateObject` after its checks answers what its calls to the database say. -/
theorem answers_objectCalls (daemon : Daemon) (base64 : Base64) (now : Nat) (request : Value) :
    Answers (LocalStorage.objectCalls daemon base64 now request) (do
      match ← param request (ascii "id") with
      | .str customId => LocalStorage.createWithId daemon base64 now request customId
      | _ => do
          let content ← decodeBase64 base64 request (ascii "content")
          let (_, object) ← daemon.createAnonymous .new now content
          LocalStorage.storeCreated daemon request object) := by
  refine Answers.bind fun id => ?_
  cases id with
  | str customId =>
      refine Answers.bind fun loaded => Answers.bind fun content => ?_
      rcases loaded with ⟨found, object⟩
      cases found with
      | true => exact Answers.bind fun updated => Answers.stored request updated.1 _ _
      | false => exact Answers.bind fun created => answers_storeCreated daemon request created.2
  | _ =>
      exact Answers.bind fun content => Answers.bind fun created =>
        answers_storeCreated daemon request created.2

end Rpc

namespace Service

variable {κ : Type} {service : Service κ} {request : Value} {world last : World}
  {answer : Bool × Value} {state : κ}

/-- The answers of `CreateObject`. -/
theorem visible_createObject_iff {daemon : Daemon} {base64 : Base64} {now : Nat}
    (h : (LocalStorage.createObject daemon base64 now request).run world = .ok answer last) :
    Visible answer ↔ WellFormed request Method.createObject.rules ∧
      LocalStorage.StoresObject daemon base64 now request world := by
  rcases checked_cases (reject request) (Method.createObject.rules_ne_nil) h with
    ⟨hwell, hrun⟩ | ⟨hwell, error, hrun⟩
  · obtain ⟨⟨after, hcalls⟩, hvisible⟩ :=
      answers_objectCalls daemon base64 now request world answer last hrun
    obtain ⟨params, hcall, htypes⟩ := hwell
    rw [hvisible, and_iff_right ⟨params, hcall, htypes⟩,
      ← LocalStorage.objectCalls_iff hcall (htypes (ascii "content", .strType) (by decide)), hcalls]
    simp
  · have hreject := returns_reject request error world answer last hrun
    exact iff_of_false hreject.2 fun hstored => hwell hstored.1

/-- A handler that keeps the state of the file plugin answers what its program answers. -/
theorem run_of_kept {program : Storage (Bool × Value)} {kept : κ}
    (h : (do return (← program, kept) : Storage ((Bool × Value) × κ)).run world =
      .ok (answer, state) last) : program.run world = .ok answer last := by
  obtain ⟨value, middle, hvalue, hpure⟩ := run_bind_eq_ok h
  simp only [run_pure, Result.ok.injEq, Prod.mk.injEq] at hpure
  obtain ⟨⟨rfl, -⟩, rfl⟩ := hpure
  exact hvalue

/-- A success, or a failure with a text in `error`, is visible. -/
theorem returns_succeed_or_fail {data : List (Bytes × Value)} {text : Bytes} {c : Prop}
    [Decidable c] (htext : text ≠ []) :
    Returns Visible (if c then succeed request data else fail request text) :=
  Returns.ite (fun _ _ _ hrun => (returns_succeed request data _ _ _ hrun).2)
    fun _ _ _ hrun => (returns_fail request htext _ _ _ hrun).2

/-- The answers of a handler that turns away what is not well formed and answers visibly else. -/
theorem visible_iff {rules : Parameters} {body : Storage (Bool × Value)} (hrules : rules ≠ [])
    (hbody : Returns Visible body)
    (h : (valid request rules >>= fun checked =>
      if checked.1 = true then body else reject request checked.2).run world = .ok answer last) :
    Visible answer ↔ WellFormed request rules := by
  rcases checked_cases (reject request) hrules h with ⟨hwell, hrun⟩ | ⟨hwell, error, hrun⟩
  · exact iff_of_true (hbody _ _ _ hrun) hwell
  · exact iff_of_false (returns_reject request error _ _ _ hrun).2 hwell

/-- The answers of `GetObject` to a request that has passed. -/
theorem visible_getObject_iff {daemon : Daemon} {base64 : Base64}
    (h : (LocalStorage.getObject daemon base64 request).run world = .ok answer last) :
    Visible answer ↔ WellFormed request Method.getObject.rules := by
  refine visible_iff Method.getObject.rules_ne_nil ?_ h
  refine Returns.seq fun id => Returns.seq fun loaded => Returns.ite ?_ ?_
  · have hsucceed (data : List (Bytes × Value)) : Returns Visible (succeed request data) :=
      fun _ _ _ hrun => (returns_succeed request data _ _ _ hrun).2
    refine Returns.seq fun params => Returns.seq fun there => ?_
    exact Returns.ite
      (Returns.seq fun flag => Returns.seq fun full => Returns.ite (hsucceed _) (hsucceed _))
      (Returns.seq fun full => Returns.ite (hsucceed _) (hsucceed _))
  · exact fun _ _ _ hrun => (returns_fail request (by decide) _ _ _ hrun).2

/-- The answers of `file_get`, whose state of the file plugin may change. -/
theorem visible_fileGet_iff {files : LocalStorage.FilePlugin κ} {before : κ}
    (h : (LocalStorage.fileGet files before request).run world = .ok (answer, state) last) :
    Visible answer ↔ WellFormed request Method.fileGet.rules := by
  rcases checked_cases (fun error => do return (← reject request error, before))
    Method.fileGet.rules_ne_nil h with ⟨hwell, hrun⟩ | ⟨hwell, error, hrun⟩
  · refine iff_of_true ?_ hwell
    obtain ⟨id, middle, -, hrun⟩ := run_bind_eq_ok hrun
    obtain ⟨⟨found, path, after⟩, middle, -, hrun⟩ := run_bind_eq_ok hrun
    cases found with
    | true => exact (returns_succeed request _ _ _ _ (run_of_kept hrun)).2
    | false => exact (returns_fail request (by decide) _ _ _ (run_of_kept hrun)).2
  · exact iff_of_false (returns_reject request error _ _ _ (run_of_kept hrun)).2 hwell

/-- A handler reports a failure to the client exactly when its request passes the checks and, for
an object to be created, the database stores it. -/
theorem error_visible_iff {method : Method}
    (h : (service.serve request method).run world = .ok (answer, state) last) :
    (answer.2.field (ascii "error") = some (.str []) ↔ answer.1 = true) ↔
      WellFormed request method.rules ∧ (method = .createObject →
        LocalStorage.StoresObject service.daemon service.base64 service.now request world) := by
  change Visible answer ↔ _
  cases method with
  | createObject => simpa using visible_createObject_iff (run_of_kept h)
  | fileGet => simpa using visible_fileGet_iff h
  | getObject => simpa using visible_getObject_iff (run_of_kept h)
  | filePut =>
      simpa using visible_iff Method.filePut.rules_ne_nil (Returns.seq fun path =>
        Returns.seq fun stored => returns_succeed_or_fail (by decide)) (run_of_kept h)
  | kvGet =>
      simpa using visible_iff Method.kvGet.rules_ne_nil (Returns.seq fun key =>
        Returns.seq fun found => returns_succeed_or_fail (by decide)) (run_of_kept h)
  | kvPut =>
      simpa using visible_iff Method.kvPut.rules_ne_nil (Returns.seq fun content =>
        Returns.seq fun key => Returns.seq fun stored => returns_succeed_or_fail (by decide))
          (run_of_kept h)
  | kvRemove =>
      simpa using visible_iff Method.kvRemove.rules_ne_nil (Returns.seq fun key =>
        Returns.seq fun removed => returns_succeed_or_fail (by decide)) (run_of_kept h)

/-- The daemon over the store with the digests of some letters, and no file plugin. -/
def letterService : Service Unit where
  daemon := letterDaemon
  base64 := letterCoder
  files := { storeFile := fun _ => return (false, []), getFile := fun _ _ => return (false, [], ()) }
  state := ()
  now := 0

/-- The object `k` with the content `a` is stored, and the client sees no error. -/
theorem error_visible_letter :
    ∃ answer last, (letterService.serve (createCall letterCoder [107] [97]).root .createObject).run
        FFStore.letterStore.fresh = .ok (answer, ()) last ∧
      (answer.2.field (ascii "error") = some (.str []) ↔ answer.1 = true) := by
  have hanswer : ((do
      let (answer, _) ← letterService.serve (createCall letterCoder [107] [97]).root .createObject
      return answer.1).run FFStore.letterStore.fresh).isTrue = true := by decide +kernel
  obtain ⟨last, hlast⟩ := Result.exists_of_isTrue hanswer
  obtain ⟨⟨answer, state⟩, middle, hrun, -⟩ := run_bind_eq_ok hlast
  have hcall : IsCall (createCall letterCoder [107] [97]).root
      [(ascii "content", .str (letterCoder.encode [97])), (ascii "id", .str [107])] :=
    ⟨_, _, rfl, rfl, rfl, rfl, by decide, rfl⟩
  refine ⟨answer, middle, hrun, (error_visible_iff hrun).2 ⟨⟨_, hcall, by decide⟩, fun _ => ?_⟩⟩
  exact (LocalStorage.objectCalls_iff hcall (by decide) _).1
    (Result.exists_of_isTrue (by decide +kernel))

/-- The request `kv.get` with a number for a key. -/
def numberKeyCall : Value :=
  .obj [(ascii "jsonrpc", .str (ascii "2.0")), (ascii "id", .int 1),
    (ascii "method", .str (ascii "kv.get")), (ascii "params", .obj [(ascii "key", .int 5)])]

/-- A request with a key of the wrong type fails with an empty text in `error`. -/
theorem error_hidden_number_key :
    ∃ answer last, (letterService.serve numberKeyCall .kvGet).run FFStore.letterStore.fresh =
        .ok (answer, ()) last ∧
      ¬ (answer.2.field (ascii "error") = some (.str []) ↔ answer.1 = true) := by
  refine ⟨(false, Response.json { id := 1, data := [], error := [], err := some _ }), _, rfl, ?_⟩
  simp

end Service

end AnarchNet
