import AnarchNet.Rpc.Connection
import AnarchNet.Rpc.Process

/-!
# What a connection waits for

The asynchronous operations of one connection. `start` begins a read; `handle_read` processes what
was read and begins a write if there is a response to write; `handle_write` begins the next read.
Nothing else begins a read, so a connection stays alive exactly as long as every message is
answered.
-/

namespace AnarchNet.Rpc

open FileSystem Json

/-- The asynchronous operations that a connection has begun and that are not yet completed. -/
structure Link where
  reading : Bool
  writing : Bool
  deriving DecidableEq

/-- An operation that completes without a socket error: a read, with the bytes in the buffer and
what the registered methods do at this moment, or a write. -/
inductive Event where
  | read (buffer : Bytes) (methods : Methods)
  | written

namespace Link

variable (spirit : Primitives)

/-- `start`. -/
def start : Link := ⟨true, false⟩

/-- `handle_read`. The step is not completed when an exception leaves it. -/
def handleRead (buffer : Bytes) (methods : Methods) : Option Link :=
  let data := copyChars buffer
  if data = [] then some ⟨false, false⟩
  else
    match process spirit methods data with
    | none => none
    | some response => some ⟨false, !response.isNull⟩

/-- `handle_write`. -/
def handleWrite : Link := ⟨true, false⟩

/-- A step of the connection; only an operation that was begun can complete. -/
def step (link : Link) : Event → Option Link
  | .read buffer methods => if link.reading then handleRead spirit buffer methods else none
  | .written => if link.writing then some handleWrite else none

/-- A sequence of steps. -/
def run : List Event → Link → Option Link
  | [], link => some link
  | event :: events, link =>
      match step spirit link event with
      | none => none
      | some next => run events next

/-- Exactly one of the two: a read is pending, or a write is pending whose completion begins a
read. -/
def Alive (link : Link) : Prop :=
  (link.reading = true ∧ link.writing = false) ∨
    (link.reading = false ∧ link.writing = true ∧
      ∃ next, step spirit link .written = some next ∧ next.reading = true)

/-- A read that brings a message, and one that gets a response. -/
def Answered : Event → Prop
  | .read buffer methods =>
      copyChars buffer ≠ [] ∧ Replies spirit methods (copyChars buffer)
  | .written => True

variable {spirit}

/-- The connection that only writes is alive. -/
theorem alive_writing : Alive spirit ⟨false, true⟩ := Or.inr ⟨rfl, rfl, handleWrite, rfl, rfl⟩

/-- The connection that only reads is alive. -/
theorem alive_reading : Alive spirit ⟨true, false⟩ := Or.inl ⟨rfl, rfl⟩

/-- The connection that waits for nothing is not alive. -/
theorem not_alive_idle : ¬ Alive spirit ⟨false, false⟩ := by
  rintro (⟨h, -⟩ | ⟨-, h, -⟩)
  · simp at h
  · simp at h

/-- A connection stays alive in a step exactly if the step answers. -/
theorem alive_step_iff {link next : Link} {event : Event} (h : step spirit link event = some next) :
    Alive spirit next ↔ Answered spirit event := by
  cases event with
  | written =>
      simp only [step, Option.ite_none_right_eq_some, Option.some.injEq] at h
      rw [← h.2]
      exact ⟨fun _ => trivial, fun _ => alive_reading⟩
  | read buffer methods =>
      simp only [step, Option.ite_none_right_eq_some] at h
      obtain ⟨-, h⟩ := h
      unfold handleRead at h
      by_cases hdata : copyChars buffer = []
      · rw [if_pos hdata, Option.some.injEq] at h
        rw [← h]
        exact ⟨fun halive => absurd halive not_alive_idle, fun hanswer => absurd hdata hanswer.1⟩
      · rw [if_neg hdata] at h
        cases hresponse : process spirit methods (copyChars buffer) with
        | none => simp [hresponse] at h
        | some response =>
            simp only [hresponse, Option.some.injEq] at h
            rw [← h, Answered, ← process_isNull_iff hresponse]
            cases response.isNull with
            | false => simp [alive_writing, hdata]
            | true => simp [not_alive_idle]

/-- The connection that receives requests reads on after a message exactly if this one begins to
write a response to it. -/
theorem reading_handleRead_iff (spirit : Primitives) (methods : Methods) (connection : Connection) :
    (connection.handleRead (fun messages => process spirit methods (messages.getLast?.getD []))
        ).reading = true ↔
      handleRead spirit connection.requestBuf methods = some ⟨false, true⟩ := by
  unfold handleRead
  by_cases hdata : copyChars connection.requestBuf = []
  · rw [if_pos hdata, Connection.handleRead]
    simp [hdata]
  · rw [if_neg hdata, (Connection.handleRead_of_ne _ _ hdata).2.2, Connection.Answers]
    simp only [List.getLast?_concat, Option.getD_some]
    cases process spirit methods (copyChars connection.requestBuf) with
    | none => simp
    | some response => simp

end Link

/-- Through a run of completed steps a connection is alive after every step exactly if every read
brings a message that is no batch and calls no method that leaves its response null. -/
theorem connection_alive_iff (spirit : Primitives) (events : List Event) (link : Link)
    (hrun : Link.run spirit events Link.start = some link) :
    (∀ front, front <+: events →
        ∃ state, Link.run spirit front Link.start = some state ∧ Link.Alive spirit state) ↔
      ∀ event ∈ events, Link.Answered spirit event := by
  have halive : Link.Alive spirit Link.start := Link.alive_reading
  generalize Link.start = first at hrun halive ⊢
  induction events generalizing first with
  | nil =>
      refine ⟨by simp, fun _ front hfront => ?_⟩
      rw [List.prefix_nil.1 hfront]
      exact ⟨first, rfl, halive⟩
  | cons event events ih =>
      rw [Link.run] at hrun
      cases hstep : Link.step spirit first event with
      | none => simp [hstep] at hrun
      | some next =>
          rw [hstep] at hrun
          have hiff := Link.alive_step_iff hstep
          have hcons : ∀ front, Link.run spirit (event :: front) first = Link.run spirit front next := by
            intro front
            rw [Link.run, hstep]
          constructor
          · intro h
            have hnext : Link.Alive spirit next := by
              obtain ⟨state, hstate, hstateAlive⟩ := h [event] (by simp)
              rw [hcons, Link.run, Option.some.injEq] at hstate
              rwa [hstate]
            have hrest := (ih next hrun hnext).1 fun front hfront => by
              simpa only [hcons] using h (event :: front) (by simpa using hfront)
            intro other hother
            rcases List.mem_cons.1 hother with rfl | hother
            · exact hiff.1 hnext
            · exact hrest other hother
          · intro h front hfront
            have hnext := hiff.2 (h event (by simp))
            cases front with
            | nil => exact ⟨first, rfl, halive⟩
            | cons other front =>
                obtain ⟨rfl, hrest⟩ := List.cons_prefix_cons.1 hfront
                rw [hcons]
                exact (ih next hrun hnext).2 (fun event hevent => h event (by simp [hevent]))
                  front hrest

/-- A request without parameters for a method, with a line end. -/
def plainRequest (method : String) : Bytes :=
  ascii ("\x7b\"jsonrpc\":\"2.0\",\"id\":1,\"method\":\"" ++ method ++ "\"\x7d") ++ crlf

/-- Two methods: one that answers, and `object.delete`, which assigns no response. -/
def sampleMethods : Methods :=
  [(ascii "an.info", fun _ => some (.obj [(ascii "result", .obj [])])),
    (ascii "object.delete", fun _ => some .null)]

/-- A message whose response is not null is answered. -/
theorem Link.answered_of_process {spirit : Primitives} {buffer : Bytes} {methods : Methods}
    (hdata : copyChars buffer ≠ [])
    (h : (process spirit methods (copyChars buffer)).map Value.isNull = some false) :
    Answered spirit (.read buffer methods) := by
  obtain ⟨response, hresponse, hnull⟩ := Option.map_eq_some_iff.1 h
  exact ⟨hdata, (process_isNull_iff hresponse).1 hnull⟩

/-- What the sample methods make of the requests, and the runs with these requests. -/
theorem runs_sampleMethods :
    (copyChars (plainRequest "an.info") ≠ [] ∧
      (process Spirit.primitives sampleMethods (copyChars (plainRequest "an.info"))).map
        Value.isNull = some false) ∧
    Link.run Spirit.primitives [.read (plainRequest "an.info") sampleMethods, .written,
      .read (plainRequest "an.info") sampleMethods] Link.start = some ⟨false, true⟩ ∧
    Link.run Spirit.primitives [.read (plainRequest "object.delete") sampleMethods] Link.start =
      some ⟨false, false⟩ := by
  decide +kernel

/-- A request for `an.info`, its answer, and the same request again. -/
theorem connection_alive_info :
    Link.run Spirit.primitives [.read (plainRequest "an.info") sampleMethods, .written,
        .read (plainRequest "an.info") sampleMethods] Link.start = some ⟨false, true⟩ ∧
      ∀ front, front <+: [.read (plainRequest "an.info") sampleMethods, .written,
          .read (plainRequest "an.info") sampleMethods] →
        ∃ state, Link.run Spirit.primitives front Link.start = some state ∧
          Link.Alive Spirit.primitives state := by
  obtain ⟨⟨hdata, hprocess⟩, hrun, -⟩ := runs_sampleMethods
  refine ⟨hrun, (connection_alive_iff Spirit.primitives _ ⟨false, true⟩ hrun).2 ?_⟩
  have hread : Link.Answered Spirit.primitives
      (.read (plainRequest "an.info") sampleMethods) :=
    Link.answered_of_process hdata hprocess
  intro event hevent
  simp only [List.mem_cons, List.not_mem_nil, or_false] at hevent
  rcases hevent with rfl | rfl | rfl
  · exact hread
  · trivial
  · exact hread

/-- After a request for `object.delete` the connection waits for nothing. -/
theorem connection_deaf_after_delete :
    Link.run Spirit.primitives [.read (plainRequest "object.delete") sampleMethods] Link.start =
        some ⟨false, false⟩ ∧
      ¬ Link.Alive Spirit.primitives ⟨false, false⟩ :=
  ⟨runs_sampleMethods.2.2, Link.not_alive_idle⟩

end AnarchNet.Rpc
