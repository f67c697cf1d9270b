import AnarchNet.Blockstore.Partition
import AnarchNet.Blockstore.Published
import AnarchNet.Db.Hunk
import AnarchNet.Json.Writer
import AnarchNet.Rpc.Client
import AnarchNet.Rpc.Ids

/-!
# The mark in a reply

The server writes the text of a response and a mark behind it, and the client cuts what it reads at
the marks. Texts of the daemon's own making do not contain the mark. An id that a client chose and
a path may, and they are part of the replies of `object.create` and `file.get`. `unbroken_iff` says
when a reply is without the mark.
-/

namespace AnarchNet

open FileSystem Json EStateM Rpc

/-- What the encoder of libb64 writes. -/
def base64Chars : Bytes :=
  ascii "ABCDEFGHIJKLMNOPQRSTUVWXYZabcdefghijklmnopqrstuvwxyz0123456789+/=\n"

/-- The id of the object that is found under an id, or the id itself if there is none. -/
def Daemon.answeredId (daemon : Daemon) (id : Bytes) (world : World) : Bytes :=
  match (ModuleManager.kvGet daemon.plugins id []).run world with
  | .ok (found, listed) _ =>
      if (daemon.headOf id found listed).1 = true then (daemon.headOf id found listed).2.id else id
  | .error _ _ => id

/-- The block store connected to the file signals. The path of a public file is the text of the
public directory and the id. -/
def Blockstore.filePlugin (store : Blockstore) (memory : Memory) (source : Bytes → Option Bytes)
    (pubText : Bytes) : LocalStorage.FilePlugin FileCache where
  storeFile path := store.storeFile memory (source path)
  getFile cache id := do
    let (found, _, after) ← store.getFile memory cache id
    return (found, pubText ++ id, after)

namespace Rpc

/-- The mark as bytes. -/
theorem mark_text : mark.text = markText := by decide

section Responses

variable (printing : Printing) {request : Value}

/-- The text of the response is without the mark. -/
def Unbroken (answer : Bool × Value) : Prop := ¬ mark.text <:+: printing.write answer.2

/-- The mark is in the text of a response exactly if it is in its data or one of its errors. -/
theorem mark_infix_response_iff (response : Response) :
    mark.text <:+: printing.write response.json ↔
      (∃ text ∈ fieldStrings response.data, markText <:+: text) ∨
        markText <:+: response.error ∨ ∃ text ∈ response.err, markText <:+: text := by
  have hnames : ∀ name ∈ [ascii "jsonrpc", ascii "2.0", ascii "result", ascii "error", ascii "id",
      ascii "err"], ¬ markText <:+: name := by decide
  simp only [List.forall_mem_cons] at hnames
  obtain ⟨hjsonrpc, hversion, hresult, herror, hid, herr, -⟩ := hnames
  rw [mark_text, Printing.mark_infix_write_iff]
  cases hfield : response.err with
  | none => simp [Response.json, Value.strings, fieldStrings, hfield, hjsonrpc, hversion, hresult,
      herror, hid, or_and_right, exists_or]
  | some text => simp [Response.json, Value.strings, fieldStrings, hfield, hjsonrpc, hversion,
      hresult, herror, hid, herr, or_and_right, exists_or]

/-- A response that was created has no data and no errors. -/
theorem returns_bare (request : Value) :
    Returns (fun response : Response => response.data = [] ∧ response.error = [] ∧
      response.err = none) (createResponse request) :=
  Returns.seq fun _ => Returns.seq fun _ => Returns.pure ⟨rfl, rfl, rfl⟩

/-- An error response has a text in `err`. -/
theorem returns_bareError (request : Value) (error : Bytes) :
    Returns (fun response : Response => response.data = [] ∧ response.error = [] ∧
      response.err = some error) (createErrorResponse request error) :=
  Returns.bind (returns_bare request) fun _ hbare => Returns.pure ⟨hbare.1, hbare.2.1, rfl⟩

/-- A call that succeeded: the mark is in the answer exactly if it is in its data. -/
theorem mark_succeed (data : List (Bytes × Value)) :
    Returns (fun answer => mark.text <:+: printing.write answer.2 ↔
      ∃ text ∈ fieldStrings data, markText <:+: text) (succeed request data) :=
  Returns.bind (returns_bare request) fun response hbare => Returns.pure <| by
    rw [mark_infix_response_iff]
    simp [hbare]

/-- A call that failed, with a text without the mark. -/
theorem unbroken_fail {text : Bytes} (h : ¬ markText <:+: text) :
    Returns (Unbroken printing) (fail request text) :=
  Returns.bind (returns_bareError request []) fun response hbare => Returns.pure <| by
    rw [Unbroken, mark_infix_response_iff]
    simp [hbare, fieldStrings, h]

/-- An object request that failed, with a text without the mark. -/
theorem unbroken_failObject {text : Bytes} (h : ¬ markText <:+: text) :
    Returns (Unbroken printing) (LocalStorage.failObject request text) :=
  Returns.bind (returns_bareError request []) fun response hbare => Returns.pure <| by
    rw [Unbroken, mark_infix_response_iff]
    simp [hbare, fieldStrings, h]

/-- A request that is turned away, with a text without the mark. -/
theorem unbroken_reject {error : Bytes} (h : ¬ markText <:+: error) :
    Returns (Unbroken printing) (reject request error) :=
  Returns.bind (returns_bareError request error) fun response hbare => Returns.pure <| by
    rw [Unbroken, mark_infix_response_iff]
    simp [hbare, fieldStrings, h]

/-- A call that succeeded with one text and a name without the mark. -/
theorem mark_succeed_one {name : Bytes} (hname : ¬ markText <:+: name) (text : Bytes) :
    Returns (fun answer => mark.text <:+: printing.write answer.2 ↔ markText <:+: text)
      (succeed request [(name, .str text)]) := by
  intro world answer last hrun
  refine (mark_succeed printing _ world answer last hrun).trans ?_
  simp [fieldStrings, Value.strings, hname]

/-- A call that succeeded without data. -/
theorem unbroken_succeed : Returns (Unbroken printing) (succeed request []) := by
  intro world answer last hrun
  refine (not_congr (mark_succeed printing _ world answer last hrun)).2 ?_
  simp [fieldStrings]

/-- The checks of a handler make texts without the mark. -/
theorem unbroken_validParams {params : Value} {rules : Parameters}
    (h : ∀ rule ∈ rules, ¬ markText <:+: rule.1 ++ ascii " has the wrong type") :
    Returns (fun checked : Bool × Bytes => ¬ markText <:+: checked.2)
      (validParams params rules) := by
  induction rules with
  | nil => exact Returns.pure (by simp)
  | cons rule rules ih =>
      refine Returns.seq fun value => Returns.ite (Returns.pure (h rule List.mem_cons_self)) ?_
      exact ih fun other hother => h other (List.mem_cons_of_mem _ hother)

/-- The checks of a handler make texts without the mark. -/
theorem unbroken_valid (method : Method) :
    Returns (fun checked : Bool × Bytes => ¬ markText <:+: checked.2)
      (valid request method.rules) := by
  refine Returns.seq fun jsonrpc => Returns.ite (Returns.pure (by decide)) ?_
  refine Returns.seq fun id => Returns.ite (Returns.pure (by decide)) ?_
  refine Returns.seq fun params => unbroken_validParams ?_
  cases method <;> decide

/-- A text without the dollar sign is without the mark. -/
theorem not_mark_of_not_mem {text : Bytes} (h : 36 ∉ text) : ¬ markText <:+: text :=
  fun hmark => h (hmark.subset (by decide))

/-- A call that succeeded with one text without the mark. -/
theorem unbroken_succeed_one {name text : Bytes} (hname : ¬ markText <:+: name)
    (htext : ¬ markText <:+: text) :
    Returns (Unbroken printing) (succeed request [(name, .str text)]) :=
  fun world answer last hrun =>
    (not_congr (mark_succeed_one printing hname text world answer last hrun)).2 htext

/-- A handler that turns a request away does so without the mark. -/
theorem unbroken_checked (method : Method) {body : Storage (Bool × Value)}
    (hbody : Returns (Unbroken printing) body) :
    Returns (Unbroken printing) (valid request method.rules >>= fun checked =>
      if checked.1 = true then body else reject request checked.2) :=
  Returns.bind (unbroken_valid method) fun _ herror =>
    Returns.ite hbody (unbroken_reject printing herror)

end Responses

section Handlers

variable (printing : Printing) {request : Value} {daemon : Daemon} {base64 : Base64}

/-- A hex text is without the mark. -/
theorem not_mark_toHex (text : Bytes) : ¬ markText <:+: toHex text :=
  not_mark_of_not_mem fun h => absurd (mem_hexDigits_of_mem_toHex h) (by decide)

/-- A base64 text is without the mark. -/
theorem not_mark_encode (hbase64 : ∀ text, ∀ char ∈ base64.encode text, char ∈ base64Chars)
    (text : Bytes) : ¬ markText <:+: base64.encode text :=
  not_mark_of_not_mem fun h => absurd (hbase64 text _ h) (by decide)

/-- The id of a file that was stored is without the mark. -/
theorem unbroken_storeFile (store : Blockstore) (memory : Memory) (source : Option Bytes) :
    Returns (fun stored : Bool × Bytes => ¬ markText <:+: stored.2)
      (store.storeFile memory source) := by
  have hnone : Returns (fun stored : Bool × Bytes => ¬ markText <:+: stored.2)
      (pure (false, []) : Storage (Bool × Bytes)) := Returns.pure (by simp)
  cases source with
  | none => exact hnone
  | some content =>
      have hhash : Returns (fun stored : Bool × Bytes => ¬ markText <:+: stored.2)
          (pure (true, toHex (store.sha.hash content)) : Storage (Bool × Bytes)) :=
        Returns.pure (not_mark_toHex _)
      refine Returns.seq fun hpath => Returns.tryCatch ?_ fun fault => ?_
      · refine Returns.seq fun there => Returns.ite hhash (Returns.seq fun opened => ?_)
        cases opened with
        | none => exact hnone
        | some header =>
            refine Returns.seq fun _ => Returns.ite (Returns.seq fun _ => hhash) ?_
            exact Returns.seq fun stored => Returns.ite hhash hnone
      · cases fault with
        | filesystemError => exact hnone
        | _ => exact Returns.throw _

/-- `file_put` answers without the mark. -/
theorem unbroken_filePut (store : Blockstore) (memory : Memory) (source : Bytes → Option Bytes)
    (pubText : Bytes) :
    Returns (Unbroken printing)
      (LocalStorage.filePut (store.filePlugin memory source pubText) request) :=
  unbroken_checked printing .filePut <| Returns.seq fun path =>
    Returns.bind (unbroken_storeFile store memory (source path)) fun _ hid =>
      Returns.ite (unbroken_succeed_one printing (by decide) hid)
        (unbroken_fail printing (by decide))

/-- `kv_get` answers without the mark. -/
theorem unbroken_kvGet (hbase64 : ∀ text, ∀ char ∈ base64.encode text, char ∈ base64Chars)
    (plugins : List KvPlugin) :
    Returns (Unbroken printing) (AnStore.kvGet plugins base64 request) :=
  unbroken_checked printing .kvGet <| Returns.seq fun key => Returns.seq fun found =>
    Returns.ite (unbroken_succeed_one printing (by decide) (not_mark_encode hbase64 _))
      (unbroken_fail printing (by decide))

/-- `kv_put` answers without the mark. -/
theorem unbroken_kvPut (plugins : List KvPlugin) :
    Returns (Unbroken printing) (AnStore.kvPut plugins base64 request) :=
  unbroken_checked printing .kvPut <| Returns.seq fun content => Returns.seq fun key =>
    Returns.seq fun stored =>
      Returns.ite (unbroken_succeed printing) (unbroken_fail printing (by decide))

/-- `kv_remove` answers without the mark. -/
theorem unbroken_kvRemove (plugins : List KvPlugin) :
    Returns (Unbroken printing) (AnStore.kvRemove plugins request) :=
  unbroken_checked printing .kvRemove <| Returns.seq fun key => Returns.seq fun removed =>
    Returns.ite (unbroken_succeed printing) (unbroken_fail printing (by decide))

/-- `GetObject` answers without the mark. -/
theorem unbroken_getObject (hbase64 : ∀ text, ∀ char ∈ base64.encode text, char ∈ base64Chars) :
    Returns (Unbroken printing) (LocalStorage.getObject daemon base64 request) := by
  have hcontent : ∀ object : Db.Object, Returns (Unbroken printing)
      (succeed request [(ascii "content", .str (base64.encode object.head))]) := fun object =>
    unbroken_succeed_one printing (by decide) (not_mark_encode hbase64 _)
  have hfull : Returns (Unbroken printing) (succeed request []) := unbroken_succeed printing
  refine unbroken_checked printing .getObject ?_
  refine Returns.seq fun id => Returns.seq fun loaded =>
    Returns.ite ?_ (unbroken_fail printing (by decide))
  refine Returns.seq fun params => Returns.seq fun there => ?_
  exact Returns.ite
    (Returns.seq fun flag => Returns.seq fun full => Returns.ite hfull (hcontent _))
    (Returns.seq fun full => Returns.ite hfull (hcontent _))

/-- Whether the mark is in an answer is decided by a call and by a text. -/
def Decided (text : Bytes) (decision : Storage Bool) (program : Storage (Bool × Value)) : Prop :=
  ∀ world answer last, program.run world = .ok answer last → ∃ stored middle,
    decision.run world = .ok stored middle ∧
      (mark.text <:+: printing.write answer.2 ↔ stored = true ∧ markText <:+: text)

namespace Decided

variable {printing} {text : Bytes}

/-- Two programs that begin alike. -/
theorem bind {α : Type} {first : Storage α} {decision : α → Storage Bool}
    {program : α → Storage (Bool × Value)}
    (h : ∀ value, Decided printing text (decision value) (program value)) :
    Decided printing text (first >>= decision) (first >>= program) := by
  intro world answer last hrun
  obtain ⟨value, middle, hvalue, hanswer⟩ := run_bind_eq_ok hrun
  obtain ⟨stored, after, hdecision, hmark⟩ := h value middle answer last hanswer
  exact ⟨stored, after, by rw [run_bind, hvalue]; exact hdecision, hmark⟩

/-- The answers to an object request, after whether the object was stored. -/
theorem stored (stored : Bool) {error : Bytes} (herror : ¬ markText <:+: error) :
    Decided printing text (pure stored) (if stored = true then
      succeed request [(ascii "id", .str text)] else LocalStorage.failObject request error) := by
  intro world answer last hrun
  refine ⟨stored, world, rfl, ?_⟩
  cases stored with
  | true =>
      exact (mark_succeed_one printing (by decide) text world answer last hrun).trans
        (and_iff_right rfl).symm
  | false =>
      have hunbroken := unbroken_failObject printing herror world answer last hrun
      exact iff_of_false hunbroken fun h => Bool.noConfusion h.1

end Decided

/-- An object that was just created is stored once more. -/
theorem decided_storeCreated (object : Db.Object) :
    Decided printing object.id (daemon.createObject object)
      (LocalStorage.storeCreated daemon request object) := by
  rw [← bind_pure (daemon.createObject object)]
  exact Decided.bind fun stored => Decided.stored stored (by decide)

/-- `CreateObject` with an id answers with the id of the object. -/
theorem mark_createWithId {now : Nat} {id : Bytes} {world last : World} {answer : Bool × Value}
    (hparam : ∀ world, (param request (ascii "id")).run world = .ok (.str id) world)
    (h : (LocalStorage.createWithId daemon base64 now request id).run world = .ok answer last) :
    mark.text <:+: printing.write answer.2 ↔
      (∃ after, (LocalStorage.objectCalls daemon base64 now request).run world = .ok true after) ∧
        markText <:+: daemon.answeredId id world := by
  obtain ⟨⟨found, object⟩, middle, hhead, hrest⟩ := run_bind_eq_ok h
  obtain ⟨stored, after, hdecision, hmark⟩ : ∃ stored after,
      (LocalStorage.objectCalls daemon base64 now request).run world = .ok stored after ∧
        (mark.text <:+: printing.write answer.2 ↔
          stored = true ∧ markText <:+: daemon.answeredId id world) := by
    obtain ⟨flag, listed, hget, hof⟩ := Daemon.run_getObjectHead_eq_ok_iff.1 hhead
    simp only [LocalStorage.objectCalls, run_bind, hparam, hhead, Daemon.answeredId, hget, hof]
    cases found with
    | true =>
        refine (Decided.bind fun content => ?_ : Decided printing object.id _ _) middle answer last
          hrest
        simp only [if_true, Daemon.updateObject, bind_assoc, pure_bind]
        exact Decided.bind fun patch => Decided.bind fun stored => Decided.stored stored (by decide)
    | false =>
        refine (Decided.bind fun content => ?_ : Decided printing id _ _) middle answer last hrest
        simp only [Bool.false_eq_true, if_false, Daemon.create, bind_assoc, pure_bind]
        exact Decided.bind fun patch => Decided.bind fun stored => decided_storeCreated printing _
  rw [hmark, hdecision]
  simp

/-- `CreateObject` without an id answers with an id of its own. -/
theorem unbroken_createAnonymous {now : Nat} {content : Bytes} :
    Returns (Unbroken printing) (do
      let (_, object) ← daemon.createAnonymous .new now content
      LocalStorage.storeCreated daemon request object) := by
  have hmade : Returns (fun made : Bool × Db.Object => ¬ markText <:+: made.2.id)
      (daemon.createAnonymous .new now content) :=
    Returns.seq fun patch => Returns.seq fun stored => Returns.pure (not_mark_toHex _)
  refine Returns.bind hmade fun made hid => Returns.seq fun stored => ?_
  exact Returns.ite (unbroken_succeed_one printing (by decide) hid)
    (unbroken_failObject printing (by decide))

end Handlers

end Rpc

/-- What the handlers of the daemon reach: its objects and plugins, the coder, the block store and
the text of its public directory. -/
structure Backend where
  daemon : Daemon
  base64 : Base64
  store : Blockstore
  pubText : Bytes
  base64_chars : ∀ text, ∀ char ∈ base64.encode text, char ∈ base64Chars

namespace Backend

variable (backend : Backend) (memory : Memory) (source : Bytes → Option Bytes) (now : Nat)
  (cache : FileCache)

/-- The handlers at a time, with the bytes of the files that can be read, and the cache of public
files. -/
def service : Service FileCache where
  daemon := backend.daemon
  base64 := backend.base64
  files := backend.store.filePlugin memory source backend.pubText
  state := cache
  now := now

/-- The request makes a handler put this text into its answer: the id of the object that
`object.create` stores for an id, or the path of the file that `file.get` finds. -/
def Echoes (request : Value) (world : World) : Method → Bytes → Prop
  | .createObject, text => WellFormed request Method.createObject.rules ∧
      ∃ id, textParam request (ascii "id") = some id ∧ text = backend.daemon.answeredId id world ∧
        LocalStorage.StoresObject backend.daemon backend.base64 now request world
  | .fileGet, text => WellFormed request Method.fileGet.rules ∧
      ∃ id, textParam request (ascii "id") = some id ∧ text = backend.pubText ++ id ∧
        backend.store.Finds memory world.tree cache id
  | _, _ => False

end Backend

namespace Rpc

/-- The mark behind a reply is the first one that the client sees. -/
structure Framed (reply : Bytes) : Prop where
  unbroken : ¬ mark.text <:+: reply
  first : ∀ rest, Delimited.cut mark.text (reply ++ (mark.text ++ rest)) = some (reply, rest)

/-- That is so if the reply is without the mark. -/
theorem framed_iff_unbroken {reply : Bytes} : Framed reply ↔ ¬ mark.text <:+: reply :=
  ⟨Framed.unbroken, fun h => ⟨h, Delimited.Delimiter.cut_frame h⟩⟩

section Echo

variable {request : Value} {params : List (Bytes × Value)}

/-- The mark is in an answer of `CreateObject` exactly if it is in the id that is answered. -/
theorem mark_createObject_iff (printing : Printing) (backend : Backend) {now : Nat}
    {world last : World} {answer : Bool × Value}
    (h : (LocalStorage.createObject backend.daemon backend.base64 now request).run world =
      .ok answer last) (memory : Memory) (cache : FileCache) :
    mark.text <:+: printing.write answer.2 ↔
      ∃ text, backend.Echoes memory now cache request world .createObject text ∧
        markText <:+: text := by
  obtain ⟨⟨ok, error⟩, middle, hvalid, hrest⟩ := run_bind_eq_ok h
  obtain rfl := (preserves_valid request Method.createObject.rules).ok hvalid
  have hwell := run_valid_iff Method.createObject.rules_ne_nil hvalid
  cases ok with
  | false =>
      have herror := unbroken_valid .createObject world _ world hvalid
      have hunbroken := unbroken_reject printing herror world answer last hrest
      refine iff_of_false hunbroken ?_
      rintro ⟨text, ⟨hwellFormed, -⟩, -⟩
      exact Bool.noConfusion (hwell.2 hwellFormed)
  | true =>
      have hwellFormed := hwell.1 rfl
      obtain ⟨params, hcall, htypes⟩ := hwell.1 rfl
      have hcalls : (∃ after, (LocalStorage.objectCalls backend.daemon backend.base64 now
          request).run world = .ok true after) ↔
          LocalStorage.StoresObject backend.daemon backend.base64 now request world :=
        LocalStorage.objectCalls_iff hcall (htypes (ascii "content", .strType) (by decide)) world
      have hparam := hcall.run_param (ascii "id")
      have htext := hcall.textParam_eq (ascii "id")
      simp only [if_true, run_bind, hparam] at hrest
      generalize (params.lookup (ascii "id")).getD .null = value at hparam htext hrest
      cases value with
      | str id =>
          rw [mark_createWithId printing hparam hrest, hcalls]
          constructor
          · rintro ⟨hstored, hmark⟩
            exact ⟨_, ⟨hwellFormed, id, htext, rfl, hstored⟩, hmark⟩
          · rintro ⟨text, ⟨-, found, hfound, rfl, hstored⟩, hmark⟩
            obtain rfl : id = found := by simpa [htext, Value.getStr] using hfound
            exact ⟨hstored, hmark⟩
      | _ =>
          refine iff_of_false (Returns.seq (fun content => unbroken_createAnonymous printing) world
            answer last hrest) ?_
          rintro ⟨text, ⟨-, id, hid, -⟩, -⟩
          simp [htext, Value.getStr] at hid

/-- The mark is in an answer of `file_get` exactly if it is in the path that is answered. -/
theorem mark_fileGet_iff (printing : Printing) (backend : Backend) (memory : Memory)
    (source : Bytes → Option Bytes) (cache : FileCache) {world last : World}
    {answer : Bool × Value} {next : FileCache}
    (h : (LocalStorage.fileGet (backend.store.filePlugin memory source backend.pubText) cache
      request).run world = .ok (answer, next) last) (now : Nat) :
    mark.text <:+: printing.write answer.2 ↔
      ∃ text, backend.Echoes memory now cache request world .fileGet text ∧
        markText <:+: text := by
  obtain ⟨⟨ok, error⟩, middle, hvalid, hrest⟩ := run_bind_eq_ok h
  obtain rfl := (preserves_valid request Method.fileGet.rules).ok hvalid
  have hwell := run_valid_iff Method.fileGet.rules_ne_nil hvalid
  cases ok with
  | false =>
      have herror := unbroken_valid .fileGet world _ world hvalid
      have hunbroken := unbroken_reject printing herror world answer last
        (Service.run_of_kept hrest)
      refine iff_of_false hunbroken ?_
      rintro ⟨text, ⟨hwellFormed, -⟩, -⟩
      exact Bool.noConfusion (hwell.2 hwellFormed)
  | true =>
      have hwellFormed := hwell.1 rfl
      obtain ⟨params, hcall, -⟩ := hwell.1 rfl
      obtain ⟨id, first, hid, hget⟩ := run_bind_eq_ok hrest
      obtain ⟨value, second, hparam, haccess⟩ := run_bind_eq_ok hid
      rw [hcall.run_param, Result.ok.injEq] at hparam
      obtain ⟨rfl, rfl⟩ := hparam
      obtain ⟨hstr, rfl⟩ := run_access_eq_ok haccess
      have htext := hcall.textParam_eq (ascii "id")
      rw [hstr] at htext
      obtain ⟨⟨found, path, after⟩, third, hfile, hlast⟩ := run_bind_eq_ok hget
      obtain ⟨⟨good, link, kept⟩, fourth, hgot, hpure⟩ := run_bind_eq_ok hfile
      simp only [run_pure, Result.ok.injEq, Prod.mk.injEq] at hpure
      obtain ⟨⟨rfl, rfl, rfl⟩, rfl⟩ := hpure
      cases good with
      | true =>
          have hmark := mark_succeed_one printing (by decide) _ _ answer last
            (Service.run_of_kept hlast)
          refine hmark.trans ⟨fun hmark => ?_, ?_⟩
          · exact ⟨_, ⟨hwellFormed, id, htext, rfl,
              (Blockstore.found_getFile_iff hgot).1 rfl⟩, hmark⟩
          · rintro ⟨text, ⟨-, other, hother, rfl, -⟩, hmark⟩
            obtain rfl : id = other := by simpa [htext] using hother
            exact hmark
      | false =>
          have hunbroken := unbroken_fail printing (by decide) _ answer last
            (Service.run_of_kept hlast)
          refine iff_of_false hunbroken ?_
          rintro ⟨text, ⟨-, other, hother, rfl, hfinds⟩, -⟩
          obtain rfl : id = other := by simpa [htext] using hother
          exact Bool.false_ne_true ((Blockstore.found_getFile_iff hgot).2 hfinds)

end Echo

end Rpc

namespace Backend

/-- The mark behind a reply is the first one that the client sees, exactly if no text that the
handler puts into its answer contains it. -/
theorem reply_framed_iff (printing : Printing) (backend : Backend) (memory : Memory)
    (source : Bytes → Option Bytes) (now : Nat) (cache next : FileCache) (request : Value)
    (method : Method) (world last : World) (answer : Bool × Value)
    (h : ((backend.service memory source now cache).serve request method).run world =
      .ok (answer, next) last) :
    Framed (printing.write answer.2) ↔
      ∀ text, backend.Echoes memory now cache request world method text →
        ¬ mark.text <:+: text := by
  have hmark : mark.text <:+: printing.write answer.2 ↔
      ∃ text, backend.Echoes memory now cache request world method text ∧
        markText <:+: text := by
    have hbase64 := backend.base64_chars
    cases method with
    | createObject => exact mark_createObject_iff printing backend (Service.run_of_kept h) _ _
    | fileGet => exact mark_fileGet_iff printing backend memory source cache h now
    | filePut =>
        refine iff_of_false ?_ (by simp [Echoes])
        exact unbroken_filePut printing _ _ _ _ _ _ _ (Service.run_of_kept h)
    | getObject =>
        refine iff_of_false ?_ (by simp [Echoes])
        exact unbroken_getObject printing hbase64 _ _ _ (Service.run_of_kept h)
    | kvGet =>
        refine iff_of_false ?_ (by simp [Echoes])
        exact unbroken_kvGet printing hbase64 _ _ _ _ (Service.run_of_kept h)
    | kvPut =>
        refine iff_of_false ?_ (by simp [Echoes])
        exact unbroken_kvPut printing _ _ _ _ (Service.run_of_kept h)
    | kvRemove =>
        refine iff_of_false ?_ (by simp [Echoes])
        exact unbroken_kvRemove printing _ _ _ _ (Service.run_of_kept h)
  rw [framed_iff_unbroken, hmark, not_exists, mark_text]
  exact forall_congr' fun text => not_and

end Backend

/-! ## An id that is the mark -/

/-- The text from which `toHex` makes a hex text. -/
def fromHex : Bytes → Bytes
  | high :: low :: rest =>
      UInt8.ofNat (16 * hexDigits.idxOf high + hexDigits.idxOf low) :: fromHex rest
  | _ => []

/-- The text is found again. -/
theorem fromHex_toHex (text : Bytes) : fromHex (toHex text) = text := by
  induction text with
  | nil => rfl
  | cons char text ih =>
      have hindex : ∀ index : Fin 16, hexDigits.idxOf hexDigits[index.val]! = index := by decide
      have hlt := char.toNat_lt
      have hhigh := hindex ⟨char.toNat / 16, by omega⟩
      have hlow := hindex ⟨char.toNat % 16, by omega⟩
      rw [toHex, List.flatMap_cons, hexPair_eq, List.cons_append, List.cons_append,
        List.nil_append, fromHex, hhigh, hlow]
      rw [toHex] at ih
      rw [ih, Nat.div_add_mod, UInt8.ofNat_toNat]

/-- A coder that writes the base64 form of the text `a`, and hex texts for other texts. -/
def hexCoder : Base64 where
  encode text := if text = [97] then ascii "YQ==\n" else toHex text
  decode code := if code = ascii "YQ==\n" then [97] else fromHex code
  decode_encode text := by
    have hother : toHex text ≠ ascii "YQ==\n" := fun h =>
      absurd (mem_hexDigits_of_mem_toHex (h ▸ List.mem_cons_self : (89 : UInt8) ∈ toHex text))
        (by decide)
    split
    · rename_i heq
      rw [if_pos rfl, heq]
    · exact fromHex_toHex text

/-- The coder writes base64 characters. -/
theorem hexCoder_chars (text : Bytes) : ∀ char ∈ hexCoder.encode text, char ∈ base64Chars := by
  intro char hchar
  have hhex : ∀ digit ∈ hexDigits, digit ∈ base64Chars := by decide +kernel
  have hletter : ∀ char ∈ ascii "YQ==\n", char ∈ base64Chars := by decide +kernel
  change char ∈ if text = [97] then ascii "YQ==\n" else toHex text at hchar
  split at hchar
  · exact hletter char hchar
  · exact hhex char (mem_hexDigits_of_mem_toHex hchar)

/-- The digests of the ids `k` and the mark, and of the patch that makes the content `a`. -/
def echoTable : List (Bytes × Bytes) :=
  [(ascii "k", digest
      0x2af8a9104b3f64ed640d8c7e298d2d480f03a3610cbc2b33474321ec59024a48
      0x592ea8545e41e09d5d1108759df48ede0054f225df39d4f0f312450e0aa9dd25),
    (mark.text, digest
      0xee33eb9e8704808a6b73385488c855f66567e6b1593a4facbe1fb95b214a2ad6
      0xf591779fd9ffa4012b62c3e0a3121443db70c6db54702d745c22e4a60f2a4636),
    (ascii "@@ -0,0 +1 @@\n+a\n", digest
      0x4c0a1b70c37781dfc95b58e7a7a5f7bf4d605b09b3cbbc13dc5763ffa637fb98
      0xb31b649dc8011a4044e9726e4d6d462deec415a3027d65c396599bb7edfe7562)]

/-- The text of the object with the content `a` under an id. -/
def echoText (id : Bytes) : Bytes :=
  let daemon : Daemon := ⟨.ofDigests echoTable, Hunk.letterLibrary, []⟩
  Hunk.letterLibrary.save (daemon.created .new 0 [97] id)

/-- A store in the directory `/data` with these digests and those of the texts of two objects. -/
def echoStore : FFStore :=
  FFStore.initialise (.ofDigests (echoTable ++
    [(echoText (ascii "k"), digest
        0xbf89a74f9ae07b60af59a513658414e7e8d734273e0e6b5b3a05b90aef014ba0
        0x2d4e1eb3787381f7bdf7ded504f394cb45d9e5214d1f957f17b798fd28f77ae5),
      (echoText mark.text, digest
        0xdc40e9d18f8ef9f9b852c3af6391627eb6ba9029a96761639df31f4ef4bbaf78
        0xd01b19d653be1194e38b648938ee1d10c3555cc882c22a621d610115a3d62513)]))
    [[100, 97, 116, 97]] validPath_data

/-- The daemon over this store and a block store in the same directory. -/
def echoBackend : Backend where
  daemon := echoStore.daemon FFStore.plainPlatform Hunk.letterLibrary
  base64 := hexCoder
  store := Blockstore.letterStore
  pubText := ascii "/data/blockstore/public/"
  base64_chars := hexCoder_chars

/-- The printing of the C locale; only the number zero can be written. -/
def plainPrinting : Printing where
  iswprint char := 32 ≤ char && char ≤ 126
  appendDouble _ := ascii "0.0000000000000000"
  iswprint_ascii char hlow hhigh := by simp [hlow, hhigh]
  appendDouble_chars _ := by decide +kernel

/-- What is answered to the request that creates the content `a` under an id. -/
def echoAnswer (id : Bytes) : Storage ((Bool × Value) × FileCache) :=
  (echoBackend.service Blockstore.letterMemory (fun _ => none) 0 []).serve
    (createCall hexCoder id [97]).root .createObject

/-- The answer for the id `k` is framed. -/
theorem reply_framed_k : ∃ answer next last,
    (echoAnswer (ascii "k")).run echoStore.fresh = .ok (answer, next) last ∧
      Framed (plainPrinting.write answer.2) := by
  have hanswer : ((do
      let (answer, _) ← echoAnswer (ascii "k")
      return answer.1).run echoStore.fresh).isTrue = true := by decide +kernel
  obtain ⟨last, hlast⟩ := Result.exists_of_isTrue hanswer
  obtain ⟨⟨answer, next⟩, middle, hrun, -⟩ := run_bind_eq_ok hlast
  refine ⟨answer, next, middle, hrun, (Backend.reply_framed_iff plainPrinting echoBackend
    Blockstore.letterMemory (fun _ => none) 0 [] next _ .createObject echoStore.fresh middle answer
    hrun).2 ?_⟩
  rintro text ⟨-, id, hid, rfl, -⟩
  obtain rfl : ascii "k" = id := Option.some.inj hid
  have hecho : echoBackend.daemon.answeredId (ascii "k") echoStore.fresh = ascii "k" := by
    decide +kernel
  rw [hecho]
  decide

/-- The answer for the id `{$}` is not. -/
theorem reply_not_framed_mark : ∃ answer next last,
    (echoAnswer mark.text).run echoStore.fresh = .ok (answer, next) last ∧
      ¬ Framed (plainPrinting.write answer.2) := by
  have hanswer : ((do
      let (answer, _) ← echoAnswer mark.text
      return decide (mark.text <:+: plainPrinting.write answer.2)).run echoStore.fresh).isTrue =
        true := by decide +kernel
  obtain ⟨last, hlast⟩ := Result.exists_of_isTrue hanswer
  obtain ⟨⟨answer, next⟩, middle, hrun, hpure⟩ := run_bind_eq_ok hlast
  rw [run_pure, Result.ok.injEq] at hpure
  exact ⟨answer, next, middle, hrun, fun h => h.unbroken (of_decide_eq_true hpure.1)⟩

end AnarchNet
