import AnarchNet.Lib.Native
import AnarchNet.Rpc.Answers

/-!
# The ids of replies

A client finds the function for a reply under the id of the reply. A response takes its id from the
request through an `int`, and so does the check for a missing id. `ids_kept_iff` says which ids come
back.
-/

namespace AnarchNet

open FileSystem Json EStateM

namespace Json

/-- The number of an integer, signed or not. -/
def Value.number : Value → Option Int
  | .int number => some number
  | .uint number => some number
  | _ => none

/-- The number of an integer, cut to an `int`. -/
theorem Value.getInt_of_number {value : Value} {number : Int} (h : value.number = some number) :
    value.getInt = some (Int.bmod number (2 ^ 32)) := by
  cases value with
  | int found =>
      obtain rfl : found = number := by simpa [Value.number] using h
      rfl
  | uint found =>
      obtain rfl : (found : Int) = number := by simpa [Value.number] using h
      rfl
  | _ => simp [Value.number] at h

/-- An integer has the type of one. -/
theorem Value.type_of_number {value : Value} {number : Int} (h : value.number = some number) :
    value.type = .intType := by
  cases value with
  | int found => rfl
  | uint found => rfl
  | _ => simp [Value.number] at h

end Json

namespace Rpc

/-- What can be answered to a request: a response created for it, with any data and errors. -/
def Reply (request answer : Value) : Prop :=
  ∃ response data error err world last, (createResponse request).run world = .ok response last ∧
    answer = Response.json { response with data := data, error := error, err := err }

section Replies

variable {request : Value} {response : Response} {world last : World}

/-- An error response is a response with a text in `err`. -/
theorem created_of_error {error : Bytes}
    (h : (createErrorResponse request error).run world = .ok response last) :
    ∃ created, (createResponse request).run world = .ok created last ∧
      response = { created with err := some error } := by
  obtain ⟨created, middle, hcreated, hpure⟩ := run_bind_eq_ok h
  rw [run_pure, Result.ok.injEq] at hpure
  obtain ⟨rfl, rfl⟩ := hpure
  exact ⟨created, hcreated, rfl⟩

/-- A request that is turned away gets a reply. -/
theorem reply_reject (error : Bytes) :
    Returns (fun answer => Reply request answer.2) (reject request error) := by
  intro world answer last hrun
  obtain ⟨response, middle, hresponse, hpure⟩ := run_bind_eq_ok hrun
  rw [run_pure, Result.ok.injEq] at hpure
  obtain ⟨created, hcreated, rfl⟩ := created_of_error hresponse
  exact ⟨created, created.data, created.error, some error, world, middle, hcreated,
    by rw [← hpure.1]⟩

/-- A request whose call failed gets a reply. -/
theorem reply_fail (text : Bytes) :
    Returns (fun answer => Reply request answer.2) (fail request text) := by
  intro world answer last hrun
  obtain ⟨response, middle, hresponse, hpure⟩ := run_bind_eq_ok hrun
  rw [run_pure, Result.ok.injEq] at hpure
  obtain ⟨created, hcreated, rfl⟩ := created_of_error hresponse
  exact ⟨created, created.data, text, some [], world, middle, hcreated, by rw [← hpure.1]⟩

/-- An object request whose call failed gets a reply. -/
theorem reply_failObject (text : Bytes) :
    Returns (fun answer => Reply request answer.2) (LocalStorage.failObject request text) := by
  intro world answer last hrun
  obtain ⟨response, middle, hresponse, hpure⟩ := run_bind_eq_ok hrun
  rw [run_pure, Result.ok.injEq] at hpure
  obtain ⟨created, hcreated, rfl⟩ := created_of_error hresponse
  exact ⟨created, created.data, created.error, some text, world, middle, hcreated,
    by rw [← hpure.1]⟩

/-- A request whose call succeeded gets a reply. -/
theorem reply_succeed (data : List (Bytes × Value)) :
    Returns (fun answer => Reply request answer.2) (succeed request data) := by
  intro world answer last hrun
  obtain ⟨response, middle, hresponse, hpure⟩ := run_bind_eq_ok hrun
  rw [run_pure, Result.ok.injEq] at hpure
  exact ⟨response, data, response.error, response.err, world, middle, hresponse, by rw [← hpure.1]⟩

end Replies

end Rpc

open Rpc

namespace Service

variable {κ : Type} {service : Service κ} {request : Value} {P : Bool × Value → Prop}

/-- What holds of every way to answer a request holds of the answers of every handler. -/
theorem returns_serve (hreject : ∀ error, Returns P (reject request error))
    (hfail : ∀ text, Returns P (fail request text))
    (hfailObject : ∀ text, Returns P (LocalStorage.failObject request text))
    (hsucceed : ∀ data, Returns P (succeed request data)) (method : Method) :
    Returns (fun served => P served.1) (service.serve request method) := by
  have hkept : ∀ (kept : κ) {program : Storage (Bool × Value)}, Returns P program →
      Returns (fun served : (Bool × Value) × κ => P served.1) (do return (← program, kept)) :=
    fun kept program hprogram => Returns.bind hprogram fun answer hanswer => Returns.pure hanswer
  have hcreated : ∀ object, Returns P (LocalStorage.storeCreated service.daemon request object) :=
    fun object => Returns.seq fun stored => Returns.ite (hsucceed _) (hfailObject _)
  cases method with
  | filePut =>
      exact hkept _ (Returns.seq fun checked => Returns.ite
        (Returns.seq fun path => Returns.seq fun stored => Returns.ite (hsucceed _) (hfail _))
        (hreject _))
  | fileGet =>
      refine Returns.seq fun checked => Returns.ite ?_ (hkept _ (hreject _))
      exact Returns.seq fun id => Returns.seq fun found =>
        Returns.ite (hkept _ (hsucceed _)) (hkept _ (hfail _))
  | createObject =>
      refine hkept _ (Returns.seq fun checked => Returns.ite ?_ (hreject _))
      refine Returns.seq fun id => ?_
      cases id with
      | str customId =>
          refine Returns.seq fun loaded => Returns.seq fun content => Returns.ite ?_ ?_
          · exact Returns.seq fun updated => Returns.ite (hsucceed _) (hfailObject _)
          · exact Returns.seq fun created => hcreated _
      | _ => exact Returns.seq fun content => Returns.seq fun created => hcreated _
  | getObject =>
      refine hkept _ (Returns.seq fun checked => Returns.ite ?_ (hreject _))
      refine Returns.seq fun id => Returns.seq fun loaded => Returns.ite ?_ (hfail _)
      refine Returns.seq fun params => Returns.seq fun there => ?_
      exact Returns.ite
        (Returns.seq fun flag => Returns.seq fun full => Returns.ite (hsucceed _) (hsucceed _))
        (Returns.seq fun full => Returns.ite (hsucceed _) (hsucceed _))
  | kvGet =>
      exact hkept _ (Returns.seq fun checked => Returns.ite
        (Returns.seq fun key => Returns.seq fun found => Returns.ite (hsucceed _) (hfail _))
        (hreject _))
  | kvPut =>
      exact hkept _ (Returns.seq fun checked => Returns.ite
        (Returns.seq fun content => Returns.seq fun key => Returns.seq fun stored =>
          Returns.ite (hsucceed _) (hfail _))
        (hreject _))
  | kvRemove =>
      exact hkept _ (Returns.seq fun checked => Returns.ite
        (Returns.seq fun key => Returns.seq fun removed => Returns.ite (hsucceed _) (hfail _))
        (hreject _))

/-- What a handler answers is a reply to its request. -/
theorem reply_serve (method : Method) :
    Returns (fun served => Reply request served.1.2) (service.serve request method) :=
  returns_serve reply_reject reply_fail reply_failObject reply_succeed method

end Service

namespace Rpc

/-- The id of a response. -/
@[simp] theorem Response.field_id (response : Response) :
    response.json.field (ascii "id") = some (.int response.id) := by
  have hjsonrpc : (ascii "id" == ascii "jsonrpc") = false := by decide
  have hresult : (ascii "id" == ascii "result") = false := by decide
  have herror : (ascii "id" == ascii "error") = false := by decide
  simp [Response.json, Value.field, Value.getObj, List.lookup_cons, hjsonrpc, hresult, herror]

variable {request id : Value} {number : Int}

/-- A response is created with the id of the request, cut to an `int`. -/
theorem run_createResponse_of_id (hid : request.field (ascii "id") = some id)
    (hnumber : id.number = some number) (world : World) :
    (createResponse request).run world =
      .ok { id := Int.bmod number (2 ^ 32), data := [], error := [], err := none } world := by
  simp only [createResponse, hid, run_bind, run_access_some, Value.getInt_of_number hnumber,
    run_pure]

/-- Every reply has the id of the request, cut to an `int`. -/
theorem Reply.field_id {answer : Value} (h : Reply request answer)
    (hid : request.field (ascii "id") = some id) (hnumber : id.number = some number) :
    answer.field (ascii "id") = some (.int (Int.bmod number (2 ^ 32))) := by
  obtain ⟨response, data, error, err, world, last, hresponse, rfl⟩ := h
  rw [run_createResponse_of_id hid hnumber, Result.ok.injEq] at hresponse
  rw [Response.field_id, ← hresponse.1]

/-- The replies to a request with an id come back under that id and no other one, and the id counts
as missing only if it is zero. -/
structure KeepsId (request : Value) (number : Int) : Prop where
  replies : ∀ answer, Reply request answer → answer.field (ascii "id") = some (.int number)
  handlers : ∀ (κ : Type) (service : Service κ) method world answer state last,
    (service.serve request method).run world = .ok (answer, state) last →
      answer.2.field (ascii "id") = some (.int number)
  missing : ∀ rules world last,
    (valid request rules).run world = .ok (false, ascii "no id") last → number = 0
  others : ∀ other answer, other ≠ number → Reply request answer →
    answer.field (ascii "id") ≠ some (.int other)

/-- No text about a parameter is the text about a missing id. -/
theorem error_ne_of_validParams {params : Value} {rules : Parameters} {error : Bytes}
    {world last : World} (h : (validParams params rules).run world = .ok (false, error) last) :
    error ≠ ascii "no id" := by
  induction rules with
  | nil => simp [validParams] at h
  | cons rule rules ih =>
      rw [← Prod.eta rule, validParams] at h
      obtain ⟨value, middle, hvalue, hchecked⟩ := run_bind_eq_ok h
      obtain ⟨-, rfl⟩ := run_access_eq_ok hvalue
      split at hchecked
      · rw [run_pure, Result.ok.injEq, Prod.mk.injEq] at hchecked
        intro hno
        have hlength := congrArg List.length (hchecked.1.2.trans hno)
        have hlong : (ascii " has the wrong type").length = 19 := by decide
        have hshort : (ascii "no id").length = 5 := by decide
        rw [List.length_append, hlong, hshort] at hlength
        omega
      · exact ih hchecked

/-- An id counts as missing if it is zero when cut to an `int`. -/
theorem bmod_eq_zero_of_missing (hid : request.field (ascii "id") = some id)
    (hnumber : id.number = some number) {rules : Parameters} {world last : World}
    (h : (valid request rules).run world = .ok (false, ascii "no id") last) :
    Int.bmod number (2 ^ 32) = 0 := by
  rw [valid] at h
  obtain ⟨jsonrpc, first, -, hversion⟩ := run_bind_eq_ok h
  split at hversion
  · rw [run_pure, Result.ok.injEq, Prod.mk.injEq] at hversion
    exact absurd hversion.1.2 (by decide)
  obtain ⟨found, second, hfound, hnumbered⟩ := run_bind_eq_ok hversion
  obtain ⟨hfield, -⟩ := run_access_eq_ok hfound
  obtain rfl : id = found := by simpa [hid] using hfield
  split at hnumbered
  · rename_i hzero
    have htype := Value.type_of_number hnumber
    simpa [Value.isNull, htype, Value.getInt_of_number hnumber] using hzero
  · obtain ⟨params, third, -, hparams⟩ := run_bind_eq_ok hnumbered
    exact absurd rfl (error_ne_of_validParams hparams)

/-- A request keeps its id exactly if that fits an `int`. -/
theorem ids_kept_iff (request id : Value) (number : Int)
    (hid : request.field (ascii "id") = some id) (hnumber : id.number = some number) :
    KeepsId request number ↔ -2 ^ 31 ≤ number ∧ number < 2 ^ 31 := by
  rw [← Native.bmod_eq_self_iff]
  constructor
  · intro h
    have hanswer := h.replies _ ⟨_, [], [], none, _, _,
      run_createResponse_of_id hid hnumber FFStore.letterStore.fresh, rfl⟩
    simpa using hanswer
  · intro hfits
    have hreply : ∀ answer, Reply request answer →
        answer.field (ascii "id") = some (.int number) := fun answer h => by
      rw [h.field_id hid hnumber, hfits]
    refine ⟨hreply, fun κ service method world answer state last hrun => ?_,
      fun rules world last hmissing => ?_, fun other answer hother h heq => ?_⟩
    · exact hreply answer.2 (Service.reply_serve method world (answer, state) last hrun)
    · rw [← hfits]
      exact bmod_eq_zero_of_missing hid hnumber hmissing
    · rw [hreply answer h] at heq
      exact hother (by simpa using heq.symm)

/-- A request with an id. -/
def idCall (number : Int) : Value :=
  .obj [(ascii "jsonrpc", .str (ascii "2.0")), (ascii "id", .int number)]

/-- The id 1 comes back. -/
theorem ids_kept_one : KeepsId (idCall 1) 1 :=
  (ids_kept_iff (idCall 1) (.int 1) 1 rfl rfl).2 (by decide)

/-- The id 2^32 + 1 comes back as 1. -/
theorem ids_not_kept_large : ¬ KeepsId (idCall (2 ^ 32 + 1)) (2 ^ 32 + 1) := by
  intro h
  have hanswer := h.replies _ ⟨_, [], [], none, _, _,
    run_createResponse_of_id rfl rfl FFStore.letterStore.fresh, rfl⟩
  rw [Response.field_id, Option.some.injEq, Value.int.injEq] at hanswer
  exact absurd hanswer (by decide)

end Rpc

end AnarchNet
