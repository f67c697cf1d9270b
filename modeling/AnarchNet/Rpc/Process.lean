import AnarchNet.Json.Spirit
import AnarchNet.Rpc.Request

/-!
# Dispatching a message

`Handler::Process` of the JSON-RPC library. A value that was never assigned is null, and assigning
to a field or an entry of a null value throws, so every error that the library wants to report in
this way is an exception that leaves `Process`. What is left are the answers of the registered
methods, which may leave their response null, and the answer to an unknown method.
-/

namespace AnarchNet.Rpc

open FileSystem Json

/-- The registered methods in the order of registration, each with what it does with a request: the
response that it leaves, null if it does not assign one, or nothing if it throws. -/
abbrev Methods := List (Bytes × (Value → Option Value))

/-- `Check`. The branches that fail assign to a null value. -/
def check (root : Value) : Option Unit := do
  if root.isNull then none
  if !(← root.contains (ascii "jsonrpc")) then none
  if (← (← root.field (ascii "jsonrpc")).getStr) ≠ ascii "2.0" then none
  let id ← root.field (ascii "id")
  if id.type = .arrayType ∨ id.type = .objType then none
  let method ← root.field (ascii "method")
  if method.type ≠ .strType then none
  return ()

/-- The answer to a method that is not registered. -/
def methodNotFound (root : Value) : Option Value := do
  let given ← root.contains (ascii "id")
  let id ← root.field (ascii "id")
  return .obj [(ascii "id", if given then id else .str (ascii "0")),
    (ascii "jsonrpc", .str (ascii "2.0")), (ascii "error", .null)]

/-- `Process` for one request. -/
def processRequest (methods : Methods) (root : Value) : Option Value := do
  check root
  let method ← (← root.field (ascii "method")).getStr
  match if method = [] then none else methods.lookup method with
  | some call => call root
  | none => methodNotFound root

/-- `Process` for a batch. A response that is not null would be assigned to an entry of the null
response, which throws. -/
def processBatch (methods : Methods) : List Value → Option Value
  | [] => some .null
  | root :: rest => do
      let response ← processRequest methods root
      if response.isNull then processBatch methods rest else none

/-- `Process` for a message. -/
def process (spirit : Primitives) (methods : Methods) (message : Bytes) : Option Value :=
  match Reader.read spirit message with
  | none => none
  | some (.array items) => processBatch methods items
  | some root => processRequest methods root

/-- The method called by a request, if it is registered. -/
def called (methods : Methods) (root : Value) : Option (Value → Option Value) :=
  match root with
  | .obj fields =>
      match fields.lookup (ascii "method") with
      | some (.str method) => if method = [] then none else methods.lookup method
      | _ => none
  | _ => none

/-- A message that is no batch and calls no method that leaves its response null. -/
def Replies (spirit : Primitives) (methods : Methods) (message : Bytes) : Prop :=
  ∀ root, Reader.read spirit message = some root → root.type ≠ .arrayType ∧
    ∀ call, called methods root = some call → ∀ response, call root = some response →
      response.isNull = false

/-- A batch that is processed leaves its response null. -/
theorem isNull_of_processBatch {methods : Methods} {items : List Value} {response : Value}
    (h : processBatch methods items = some response) : response.isNull = true := by
  induction items with
  | nil =>
      rw [processBatch, Option.some.injEq] at h
      rw [← h]
      rfl
  | cons root items ih =>
      rw [processBatch, Option.bind_eq_bind, Option.bind_eq_some_iff] at h
      obtain ⟨first, -, h⟩ := h
      split at h
      · exact ih h
      · simp at h

/-- The answer to an unknown method is not null. -/
theorem isNull_of_methodNotFound {root response : Value} (h : methodNotFound root = some response) :
    response.isNull = false := by
  simp only [methodNotFound, Option.bind_eq_bind, Option.bind_eq_some_iff, Option.pure_def,
    Option.some.injEq] at h
  obtain ⟨_, _, _, _, rfl⟩ := h
  rfl

/-- What `Check` accepts has a method. -/
theorem exists_method_of_check {root : Value} (h : check root = some ()) :
    ∃ fields method, root = .obj fields ∧ fields.lookup (ascii "method") = some (.str method) := by
  cases root with
  | obj fields =>
      simp only [check, Value.field, Value.getObj, Option.map_some, Option.bind_eq_bind,
        Option.bind_some] at h
      refine ⟨fields, ?_⟩
      cases hmethod : fields.lookup (ascii "method") with
      | none => simp [hmethod, Value.type] at h
      | some method =>
          cases method with
          | str text => exact ⟨text, rfl, rfl⟩
          | _ => simp [hmethod, Value.type] at h
  | _ => simp [check, Value.contains, Value.getObj, Value.isNull, Value.type] at h

/-- The answer to a request that is processed is that of the method it calls or that of an unknown
method. -/
theorem processRequest_cases {methods : Methods} {root response : Value}
    (h : processRequest methods root = some response) :
    (∃ call, called methods root = some call ∧ call root = some response) ∨
      (called methods root = none ∧ methodNotFound root = some response) := by
  simp only [processRequest, Option.bind_eq_bind, Option.bind_eq_some_iff] at h
  obtain ⟨_, hcheck, value, hvalue, method, hmethod, h⟩ := h
  obtain ⟨fields, text, rfl, hlookup⟩ := exists_method_of_check hcheck
  obtain rfl : text = method := by
    simp only [Value.field, Value.getObj, Option.map_some, hlookup, Option.getD_some,
      Option.some.injEq] at hvalue
    rw [← hvalue, Value.getStr, Option.some.injEq] at hmethod
    exact hmethod
  have hcalled : called methods (.obj fields) = if text = [] then none else methods.lookup text := by
    simp only [called, hlookup]
  rw [← hcalled] at h
  cases hcall : called methods (.obj fields) with
  | none =>
      rw [hcall] at h
      exact Or.inr ⟨rfl, h⟩
  | some call =>
      rw [hcall] at h
      exact Or.inl ⟨call, rfl, h⟩

/-- A message that is processed has a response that is not null exactly if it replies. -/
theorem process_isNull_iff {spirit : Primitives} {methods : Methods} {message : Bytes}
    {response : Value} (h : process spirit methods message = some response) :
    response.isNull = false ↔ Replies spirit methods message := by
  unfold process at h
  unfold Replies
  cases hread : Reader.read spirit message with
  | none => simp [hread] at h
  | some root =>
      simp only [Option.some.injEq, forall_eq']
      by_cases harray : root.type = .arrayType
      · obtain ⟨items, rfl⟩ : ∃ items, root = .array items := by
          cases root <;> simp [Value.type] at harray
          exact ⟨_, rfl⟩
        rw [hread] at h
        simp [isNull_of_processBatch h, Value.type]
      · have hrequest : processRequest methods root = some response := by
          rw [hread] at h
          cases root <;> first | exact h | exact absurd rfl harray
        simp only [harray, ne_eq, not_false_eq_true, true_and]
        rcases processRequest_cases hrequest with ⟨call, hcall, hresponse⟩ | ⟨hcall, hresponse⟩
        · simp [hcall, hresponse]
        · simp [hcall, isNull_of_methodNotFound hresponse]

end AnarchNet.Rpc
