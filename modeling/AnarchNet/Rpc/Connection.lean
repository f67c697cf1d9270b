import AnarchNet.Json.Spirit

/-!
# The RPC connection

The daemon's side of one connection. `async_read_until` collects what the network delivers until
the buffer contains a line end, `handle_read` copies the whole buffer into a message without white
space and hands it to `Handler::Process`. Only when the response has been written is the next
read started. Writing a response succeeds, and what the network delivers before it is written
waits in the socket.

The first result says when the messages are the requests of the client, the second when a request
keeps its meaning on the way into the handler.
-/

namespace AnarchNet.Rpc

open FileSystem Json

/-- The end of a line. -/
abbrev crlf : Bytes := [13, 10]

/-- `Handler::Process` for one connection: the response to the last of the messages so far, or
nothing if an exception leaves it. -/
abbrev Handler := List Bytes → Option Value

/-- `connection`, with the messages that it has given to the handler. -/
structure Connection where
  requestBuf : Bytes
  reading : Bool
  processed : List Bytes
  deriving DecidableEq

namespace Connection

variable (handler : Handler)

/-- `start`: the first read is under way. -/
def start : Connection := ⟨[], true, []⟩

/-- `handle_read`. The copy empties the buffer. The next read is started by `handle_write`, which
runs only after a response that is not null. -/
def handleRead (connection : Connection) : Connection :=
  let data := copyChars connection.requestBuf
  if data = [] then { connection with requestBuf := [], reading := false }
  else
    let processed := connection.processed ++ [data]
    let answered := match handler processed with
      | some response => !response.isNull
      | none => false
    ⟨[], answered, processed⟩

/-- One read of `async_read_until`: it completes when the buffer contains a line end. A read that
starts on the buffer that `handleRead` leaves, an empty one, never completes at once. -/
def receive (connection : Connection) (chunk : Bytes) : Connection :=
  if connection.reading then
    let buffer := connection.requestBuf ++ chunk
    if crlf <:+: buffer then handleRead handler { connection with requestBuf := buffer }
    else { connection with requestBuf := buffer }
  else connection

/-- The connection after a sequence of reads. -/
def run (connection : Connection) (chunks : List Bytes) : Connection :=
  chunks.foldl (receive handler) connection

/-- What a client sends: every request followed by a line end. -/
def stream (requests : List Bytes) : Bytes := (requests.map (· ++ crlf)).flatten

/-- A text that arrives in the handler as it is: it is not empty and has no white space. -/
def Solid (text : Bytes) : Prop := text ≠ [] ∧ ∀ byte ∈ text, isSpace byte = false

/-- Every request with its line end is the bytes of a whole number of reads. -/
def Framed (requests chunks : List Bytes) : Prop :=
  ∃ groups : List (List Bytes), groups.flatten = chunks ∧
    groups.map List.flatten = requests.map (· ++ crlf)

/-- The response to the last of these messages is there and is not null. -/
def Answers (messages : List Bytes) : Prop :=
  ∃ response, handler messages = some response ∧ response.isNull = false

/-- Every request but the last is answered, after the messages of the past. -/
def Answered (past requests : List Bytes) : Prop :=
  ∀ front back, requests = front ++ back → front ≠ [] → back ≠ [] →
    Answers handler (past ++ front)

variable {handler}

@[simp] theorem run_nil (connection : Connection) : run handler connection [] = connection := rfl

@[simp] theorem run_cons (connection : Connection) (chunk : Bytes) (chunks : List Bytes) :
    run handler connection (chunk :: chunks) =
      run handler (receive handler connection chunk) chunks := rfl

theorem run_append (connection : Connection) (first second : List Bytes) :
    run handler connection (first ++ second) =
      run handler (run handler connection first) second :=
  List.foldl_append ..

/-- A connection that does not read stays as it is. -/
theorem run_of_not_reading {connection : Connection} (h : connection.reading = false)
    (chunks : List Bytes) : run handler connection chunks = connection := by
  induction chunks with
  | nil => rfl
  | cons chunk chunks ih => rw [run_cons, receive, h]; exact ih

/-- What `handle_read` does with a message. -/
theorem handleRead_of_ne (handler : Handler) (connection : Connection)
    (h : copyChars connection.requestBuf ≠ []) :
    (handleRead handler connection).requestBuf = [] ∧
      (handleRead handler connection).processed =
        connection.processed ++ [copyChars connection.requestBuf] ∧
      ((handleRead handler connection).reading = true ↔
        Answers handler (connection.processed ++ [copyChars connection.requestBuf])) := by
  rw [handleRead, if_neg h]
  refine ⟨rfl, rfl, ?_⟩
  cases hresponse : handler (connection.processed ++ [copyChars connection.requestBuf]) with
  | none => simp [Answers, hresponse]
  | some response => simp [Answers, hresponse]

/-- The messages of the handler are kept. -/
theorem processed_le_run (handler : Handler) (connection : Connection) (chunks : List Bytes) :
    connection.processed <+: (run handler connection chunks).processed := by
  induction chunks generalizing connection with
  | nil => exact List.prefix_rfl
  | cons chunk chunks ih =>
      refine List.IsPrefix.trans ?_ (ih _)
      unfold receive
      split
      · dsimp only
        split
        · unfold handleRead
          dsimp only
          split
          · exact List.prefix_rfl
          · exact List.prefix_append ..
        · exact List.prefix_rfl
      · exact List.prefix_rfl

/-- The handler only ever sees solid messages. -/
theorem solid_of_mem_processed (handler : Handler) {connection : Connection}
    (h : ∀ message ∈ connection.processed, Solid message) (chunks : List Bytes) :
    ∀ message ∈ (run handler connection chunks).processed, Solid message := by
  induction chunks generalizing connection with
  | nil => exact h
  | cons chunk chunks ih =>
      refine ih ?_
      unfold receive
      split
      · dsimp only
        split
        · unfold handleRead
          dsimp only
          split
          · exact h
          · next hdata =>
              intro message hmem
              rcases List.mem_append.mp hmem with hmem | hmem
              · exact h message hmem
              · rw [List.mem_singleton.mp hmem]
                refine ⟨hdata, fun byte hbyte => ?_⟩
                simpa using (List.mem_filter.mp hbyte).2
        · exact h
      · exact h

/-- Reads without a line end collect in the buffer. -/
theorem run_collect {buffer : Bytes} {past : List Bytes} {chunks : List Bytes}
    (h : ¬ crlf <:+: buffer ++ chunks.flatten) :
    run handler ⟨buffer, true, past⟩ chunks = ⟨buffer ++ chunks.flatten, true, past⟩ := by
  induction chunks generalizing buffer with
  | nil => simp
  | cons chunk chunks ih =>
      rw [List.flatten_cons, ← List.append_assoc] at h
      have hno : ¬ crlf <:+: buffer ++ chunk := fun hin =>
        h (hin.trans (List.prefix_append ..).isInfix)
      rw [run_cons, receive, if_pos rfl, if_neg hno, ih h, List.flatten_cons, List.append_assoc]

/-- A read completes when the buffer contains a line end. -/
theorem receive_of_line_end {past : List Bytes} {buffer chunk : Bytes}
    (h : crlf <:+: buffer ++ chunk) :
    receive handler ⟨buffer, true, past⟩ chunk =
      handleRead handler ⟨buffer ++ chunk, true, past⟩ := by
  rw [receive, if_pos rfl, if_pos h]

/-- The read that brings the first line end completes. -/
theorem run_complete {past : List Bytes} {front : List Bytes} {chunk : Bytes}
    (hbefore : ¬ crlf <:+: front.flatten) (hnow : crlf <:+: (front ++ [chunk]).flatten) :
    run handler ⟨[], true, past⟩ (front ++ [chunk]) =
      handleRead handler ⟨(front ++ [chunk]).flatten, true, past⟩ := by
  have hflat : (front ++ [chunk]).flatten = front.flatten ++ chunk := by simp
  rw [hflat] at hnow ⊢
  rw [run_append, run_collect (by simpa using hbefore), List.nil_append, run_cons,
    receive_of_line_end hnow, run_nil]

/-- Some read brings the first line end. -/
theorem exists_first_line_end {chunks : List Bytes} (h : crlf <:+: chunks.flatten) :
    ∃ front chunk back, chunks = front ++ chunk :: back ∧ ¬ crlf <:+: front.flatten ∧
      crlf <:+: (front ++ [chunk]).flatten := by
  induction chunks using List.reverseRecOn with
  | nil => exact absurd h (by decide)
  | append_singleton chunks chunk ih =>
      by_cases hbefore : crlf <:+: chunks.flatten
      · obtain ⟨front, first, back, rfl, hno, hyes⟩ := ih hbefore
        exact ⟨front, first, back ++ [chunk], by simp, hno, hyes⟩
      · exact ⟨chunks, chunk, [], rfl, hbefore, h⟩

/-- A solid text has no line feed. -/
theorem Solid.lf_not_mem {text : Bytes} (h : Solid text) : (10 : UInt8) ∉ text :=
  fun hmem => absurd (h.2 10 hmem) (by decide)

/-- There is no line end before the one that follows a solid text. -/
theorem Solid.crlf_not_infix {text part rest : Bytes} (h : Solid text) (hrest : rest ≠ [])
    (heq : part ++ rest = text ++ crlf) : ¬ crlf <:+: part := by
  intro hin
  obtain ⟨rest, byte, rfl⟩ := (List.eq_nil_or_concat rest).resolve_left hrest
  have hpart : part ++ rest = text ++ [13] := by
    have heq : (part ++ rest) ++ [byte] = (text ++ [13]) ++ [10] := by simpa using heq
    exact (List.append_inj' heq rfl).1
  have hmem : (10 : UInt8) ∈ text ++ [13] :=
    hpart ▸ List.mem_append_left rest (hin.subset (by decide))
  rcases List.mem_append.mp hmem with hmem | hmem
  · exact h.lf_not_mem hmem
  · exact absurd hmem (by decide)

/-- What the first completed read holds starts with the first request and its line end. -/
theorem Solid.prefix_of_crlf_infix {text part rest tail : Bytes} (h : Solid text)
    (heq : part ++ rest = text ++ crlf ++ tail) (hin : crlf <:+: part) : text ++ crlf <+: part := by
  have hpart : part <+: text ++ crlf ++ tail := ⟨rest, heq⟩
  rcases List.prefix_or_prefix_of_prefix (List.prefix_append (text ++ crlf) tail) hpart with
    hle | ⟨more, hmore⟩
  · exact hle
  · by_cases hnil : more = []
    · rw [hnil, List.append_nil] at hmore
      exact hmore ▸ List.prefix_rfl
    · exact absurd hin (h.crlf_not_infix hnil hmore)

/-- The first byte of a sequence of solid requests is copied. -/
theorem copyChars_ne_nil_of_prefix_stream {requests : List Bytes} {more : Bytes}
    (hsolid : ∀ request ∈ requests, Solid request) (hle : more <+: stream requests)
    (hne : more ≠ []) : copyChars more ≠ [] := by
  cases requests with
  | nil => exact absurd (List.prefix_nil.mp hle) hne
  | cons request requests =>
      obtain ⟨hnil, hspace⟩ := hsolid request List.mem_cons_self
      obtain ⟨byte, request, rfl⟩ := List.exists_cons_of_ne_nil hnil
      obtain ⟨first, more, rfl⟩ := List.exists_cons_of_ne_nil hne
      obtain ⟨tail, htail⟩ := hle
      have hbyte : first = byte := by
        have hhead := congrArg List.head? htail
        simpa [stream] using hhead
      rw [copyChars_cons (hbyte ▸ hspace byte List.mem_cons_self)]
      exact List.cons_ne_nil _ _

/-- A completed read that holds one solid request. -/
theorem handleRead_request (handler : Handler) {request : Bytes} (h : Solid request)
    (past : List Bytes) :
    (handleRead handler ⟨request ++ crlf, true, past⟩).requestBuf = [] ∧
      (handleRead handler ⟨request ++ crlf, true, past⟩).processed = past ++ [request] ∧
      ((handleRead handler ⟨request ++ crlf, true, past⟩).reading = true ↔
        Answers handler (past ++ [request])) := by
  have hcopy : copyChars (request ++ crlf) = request := by
    rw [copyChars_append, copyChars_eq_self_iff.mpr h.2]
    exact List.append_nil request
  have hread := handleRead_of_ne handler ⟨request ++ crlf, true, past⟩ (by rw [hcopy]; exact h.1)
  rwa [hcopy] at hread

/-- Reads without bytes do not happen. -/
theorem eq_nil_of_flatten_eq_nil {chunks : List Bytes} (hne : ∀ chunk ∈ chunks, chunk ≠ [])
    (h : chunks.flatten = []) : chunks = [] := by
  rw [List.eq_nil_iff_forall_not_mem]
  exact fun chunk hmem => hne chunk hmem (List.flatten_eq_nil_iff.mp h chunk hmem)

/-- The answers to a sequence of requests, one request further on. -/
theorem answered_cons {past rest : List Bytes} {request : Bytes} :
    Answered handler past (request :: rest) ↔
      (rest ≠ [] → Answers handler (past ++ [request])) ∧
        Answered handler (past ++ [request]) rest := by
  constructor
  · intro h
    refine ⟨fun hne => h [request] rest rfl (by simp) hne, fun front back heq hfront hback => ?_⟩
    simpa using h (request :: front) back (by rw [heq]; rfl) (by simp) hback
  · rintro ⟨hfirst, hlater⟩ front back heq hfront hback
    obtain ⟨other, front, rfl⟩ := List.exists_cons_of_ne_nil hfront
    rw [List.cons_append, List.cons.injEq] at heq
    obtain ⟨rfl, heq⟩ := heq
    by_cases hnil : front = []
    · rw [hnil]
      exact hfirst (by rw [heq, hnil]; exact hback)
    · simpa using hlater front back heq hnil hback

/-- One more request in front: what follows depends on the answer to it. -/
theorem run_after_request {request : Bytes} (hsolid : Solid request) {past rest : List Bytes}
    {back : List Bytes} (hback : ∀ chunk ∈ back, chunk ≠ []) (hflat : back.flatten = stream rest) :
    (run handler (handleRead handler ⟨request ++ crlf, true, past⟩) back).processed =
        past ++ request :: rest ↔
      (rest ≠ [] → Answers handler (past ++ [request])) ∧
        (run handler ⟨[], true, past ++ [request]⟩ back).processed =
          past ++ [request] ++ rest := by
  obtain ⟨hbuf, hprocessed, hreading⟩ := handleRead_request handler hsolid past
  generalize handleRead handler ⟨request ++ crlf, true, past⟩ = after at hbuf hprocessed hreading ⊢
  obtain ⟨buffer, reading, processed⟩ := after
  dsimp only at hbuf hprocessed hreading
  subst hbuf hprocessed
  by_cases hanswer : Answers handler (past ++ [request])
  · rw [hreading.mpr hanswer]
    simp [hanswer]
  · have hstop : reading = false := Bool.eq_false_iff.mpr (mt hreading.mp hanswer)
    rw [run_of_not_reading hstop]
    constructor
    · intro heq
      have hrest : rest = [] := by simpa using heq
      subst hrest
      rw [eq_nil_of_flatten_eq_nil hback hflat]
      simp
    · rintro ⟨hrest, -⟩
      have hrest : rest = [] := not_not.mp (mt hrest hanswer)
      rw [hrest]

/-- The reads of one request together. -/
theorem run_group {request : Bytes} (hsolid : Solid request) {group past : List Bytes}
    (hne : ∀ chunk ∈ group, chunk ≠ []) (hgroup : group.flatten = request ++ crlf) :
    run handler ⟨[], true, past⟩ group = handleRead handler ⟨request ++ crlf, true, past⟩ := by
  obtain ⟨front, chunk, rfl⟩ := (List.eq_nil_or_concat group).resolve_left
    (by rintro rfl; simp at hgroup)
  rw [List.concat_eq_append] at hgroup hne ⊢
  have hparts : front.flatten ++ chunk = request ++ crlf := by simpa using hgroup
  rw [run_complete (hsolid.crlf_not_infix (hne chunk (by simp)) hparts)
    (by rw [hgroup]; exact ⟨request, [], by simp⟩), hgroup]

/-- If the first message is the first request, then the reads up to it are that request. -/
theorem exists_group {request : Bytes} (hsolid : Solid request) {rest chunks past : List Bytes}
    (hrest : ∀ other ∈ rest, Solid other) (hflat : chunks.flatten = stream (request :: rest))
    (hprocessed : past ++ [request] <+: (run handler ⟨[], true, past⟩ chunks).processed) :
    ∃ group back, chunks = group ++ back ∧ group.flatten = request ++ crlf ∧
      back.flatten = stream rest := by
  have hstream : stream (request :: rest) = request ++ crlf ++ stream rest := rfl
  rw [hstream] at hflat
  obtain ⟨front, chunk, back, rfl, hbefore, hnow⟩ := exists_first_line_end
    (show crlf <:+: chunks.flatten from hflat ▸ ⟨request, stream rest, rfl⟩)
  have hlist : front ++ chunk :: back = (front ++ [chunk]) ++ back := by simp
  rw [hlist, List.flatten_append] at hflat
  obtain ⟨more, hmore⟩ := hsolid.prefix_of_crlf_infix hflat hnow
  have htail : more ++ back.flatten = stream rest := by
    rw [← hmore, List.append_assoc] at hflat
    exact List.append_cancel_left hflat
  -- nothing of the later requests may be in the first message
  have hcopy : copyChars (request ++ crlf ++ more) = request ++ copyChars more := by
    rw [copyChars_append, copyChars_append, copyChars_eq_self_iff.mpr hsolid.2]
    simp [copyChars, isSpace]
  have hdata : copyChars (request ++ crlf ++ more) ≠ [] := by
    rw [hcopy]
    exact List.append_ne_nil_of_left_ne_nil hsolid.1 _
  obtain ⟨-, hafter, -⟩ := handleRead_of_ne handler ⟨request ++ crlf ++ more, true, past⟩ hdata
  have hle := processed_le_run handler
    (handleRead handler ⟨request ++ crlf ++ more, true, past⟩) back
  rw [hlist, run_append, run_complete hbefore hnow, ← hmore] at hprocessed
  have heq := List.prefix_of_prefix_length_le hprocessed hle (by rw [hafter]; simp)
  rw [hafter, hcopy, List.prefix_append_right_inj, List.cons_prefix_cons] at heq
  have hnil : more = [] := by
    by_contra hne
    exact copyChars_ne_nil_of_prefix_stream hrest ⟨_, htail⟩ hne
      (List.self_eq_append_right.mp heq.1)
  subst hnil
  exact ⟨front ++ [chunk], back, hlist, by rw [← hmore, List.append_nil], htail⟩

/-- The framing of a sequence of solid requests: the messages are the requests exactly if reads
and requests fit together and every request but the last is answered. -/
theorem run_processed_iff {requests : List Bytes} (hsolid : ∀ request ∈ requests, Solid request)
    {chunks past : List Bytes} (hne : ∀ chunk ∈ chunks, chunk ≠ [])
    (hflat : chunks.flatten = stream requests) :
    (run handler ⟨[], true, past⟩ chunks).processed = past ++ requests ↔
      Framed requests chunks ∧ Answered handler past requests := by
  induction requests generalizing chunks past with
  | nil =>
      rw [eq_nil_of_flatten_eq_nil hne hflat]
      simp only [run_nil, List.append_nil, true_iff]
      exact ⟨⟨[], rfl, rfl⟩, fun front back heq hfront =>
        absurd (List.nil_eq_append_iff.mp heq).1 hfront⟩
  | cons request rest ih =>
      have hrequest := hsolid request List.mem_cons_self
      have hrest : ∀ other ∈ rest, Solid other := fun other hother =>
        hsolid other (List.mem_cons_of_mem _ hother)
      have hstream : stream (request :: rest) = request ++ crlf ++ stream rest := rfl
      rw [answered_cons]
      constructor
      · intro hprocessed
        have hfirst : past ++ [request] <+: (run handler ⟨[], true, past⟩ chunks).processed := by
          rw [hprocessed]
          simp
        obtain ⟨group, back, rfl, hgroup, hback⟩ := exists_group hrequest hrest hflat hfirst
        have hlater : ∀ chunk ∈ back, chunk ≠ [] := fun chunk hmem =>
          hne chunk (List.mem_append_right _ hmem)
        rw [run_append, run_group hrequest (fun chunk hmem =>
          hne chunk (List.mem_append_left _ hmem)) hgroup,
          run_after_request hrequest hlater hback, ih hrest hlater hback] at hprocessed
        obtain ⟨hanswer, ⟨groups, rfl, hmap⟩, hanswers⟩ := hprocessed
        exact ⟨⟨group :: groups, rfl, by rw [List.map_cons, List.map_cons, hmap, hgroup]⟩,
          hanswer, hanswers⟩
      · rintro ⟨⟨groups, rfl, hmap⟩, hanswer, hanswers⟩
        obtain ⟨group, groups, rfl⟩ := List.exists_cons_of_ne_nil
          (show groups ≠ [] by rintro rfl; simp at hmap)
        rw [List.map_cons, List.map_cons, List.cons.injEq] at hmap
        obtain ⟨hgroup, hmap⟩ := hmap
        rw [List.flatten_cons] at hne hflat ⊢
        have hlater : ∀ chunk ∈ groups.flatten, chunk ≠ [] := fun chunk hmem =>
          hne chunk (List.mem_append_right _ hmem)
        have hback : groups.flatten.flatten = stream rest := by
          rw [List.flatten_append, hgroup, hstream] at hflat
          exact List.append_cancel_left hflat
        rw [run_append, run_group hrequest (fun chunk hmem =>
          hne chunk (List.mem_append_left _ hmem)) hgroup,
          run_after_request hrequest hlater hback, ih hrest hlater hback]
        exact ⟨hanswer, ⟨groups, rfl, hmap⟩, hanswers⟩

/-- The messages that the handler gets from a stream of requests are the requests, one by one and
in order, exactly if every request is a non-empty text without white space, every request with its
line end is the bytes of a whole number of reads, and every request but the last is answered. -/
theorem messages_eq_requests_iff (handler : Handler) (requests chunks : List Bytes)
    (hne : ∀ chunk ∈ chunks, chunk ≠ []) (hflat : chunks.flatten = stream requests) :
    (run handler start chunks).processed = requests ↔
      (∀ request ∈ requests, Solid request) ∧ Framed requests chunks ∧
        Answered handler [] requests := by
  by_cases hsolid : ∀ request ∈ requests, Solid request
  · rw [and_iff_right hsolid]
    exact run_processed_iff hsolid hne hflat
  · refine iff_of_false (fun heq => hsolid ?_) (fun h => hsolid h.1)
    have hmessages := solid_of_mem_processed handler
      (show ∀ message ∈ start.processed, Solid message by simp [start]) chunks
    rwa [heq] at hmessages

/-- A handler that answers every message. -/
def answering : Handler := fun _ => some (.bool true)

/-- Two requests, the second in two reads. -/
theorem messages_eq_requests_three_reads :
    (run answering start [[49, 13, 10], [50, 13], [10]]).processed = [[49], [50]] := by
  refine (messages_eq_requests_iff answering [[49], [50]] _ (by decide) (by decide)).mpr
    ⟨?_, ⟨[[[49, 13, 10]], [[50, 13], [10]]], rfl, rfl⟩, fun _ _ _ _ _ => ⟨_, rfl, rfl⟩⟩
  intro request hrequest
  rcases List.mem_pair.mp hrequest with rfl | rfl
  · exact ⟨List.cons_ne_nil _ _, fun byte hbyte => by rw [List.mem_singleton.mp hbyte]; rfl⟩
  · exact ⟨List.cons_ne_nil _ _, fun byte hbyte => by rw [List.mem_singleton.mp hbyte]; rfl⟩

/-- Two requests that arrive in one read become one message. -/
theorem messages_ne_requests_one_read :
    ¬ ∀ (handler : Handler) (requests chunks : List Bytes),
      (∀ request ∈ requests, 13 ∉ request ∧ 10 ∉ request) → (∀ chunk ∈ chunks, chunk ≠ []) →
      chunks.flatten = stream requests → (run handler start chunks).processed = requests := by
  intro h
  exact absurd (h answering [[49], [50]] [[49, 13, 10, 50, 13, 10]] (by decide) (by decide)
    (by decide)) (by decide)

/-- A document that arrives in one read reaches the handler without its white space. -/
theorem receive_document (handler : Handler) (doc : Doc) (before after : Spaces) :
    (receive handler start (before.bytes ++ (doc.render ++ after.bytes) ++ crlf)).processed =
      [doc.strip.render] := by
  have hin : crlf <:+: [] ++ (before.bytes ++ (doc.render ++ after.bytes) ++ crlf) :=
    (List.suffix_append _ crlf).isInfix
  have hcopy : copyChars ([] ++ (before.bytes ++ (doc.render ++ after.bytes) ++ crlf)) =
      doc.strip.render := by
    simp only [List.nil_append, copyChars_append, copyChars_spaces, doc.copyChars_render]
    simp [copyChars, isSpace]
  have hdata : copyChars ([] ++ (before.bytes ++ (doc.render ++ after.bytes) ++ crlf)) ≠ [] := by
    rw [hcopy]
    exact doc.strip.render_ne_nil
  rw [start, receive_of_line_end hin, (handleRead_of_ne handler _ hdata).2.1, hcopy]
  rfl

/-- The reader finds in a stripped document what is left of its value. -/
theorem read_strip (spirit : Primitives) (doc : Doc) :
    Reader.read spirit doc.strip.render = some doc.strip.value := by
  simpa [Spaces.none] using doc.strip.read_render spirit .none .none

/-- A document that arrives in one read is read by the handler as the value that it names exactly
if no string literal in it, name or value, has an unescaped space. -/
theorem message_reads_value_iff (spirit : Primitives) (handler : Handler) (doc : Doc)
    (before after : Spaces) :
    (∃ message,
      (receive handler start (before.bytes ++ (doc.render ++ after.bytes) ++ crlf)).processed =
        [message] ∧ Reader.read spirit message = some doc.value) ↔ doc.NoBlank := by
  rw [receive_document, ← doc.value_strip_iff]
  constructor
  · rintro ⟨message, hmessage, hread⟩
    obtain rfl : doc.strip.render = message := by simpa using hmessage
    rw [read_strip] at hread
    exact Option.some.inj hread
  · intro hvalue
    exact ⟨_, rfl, by rw [read_strip, hvalue]⟩

/-- The document `"a b"`. -/
def blankDoc : Doc :=
  .str [.plain 97 (by decide) (by decide) (by decide), .plain 32 (by decide) (by decide) (by decide),
    .plain 98 (by decide) (by decide) (by decide)]

/-- The string `a b` reaches the handler as `ab`. -/
theorem message_loses_space :
    ¬ ∀ (spirit : Primitives) (handler : Handler) (doc : Doc) (before after : Spaces),
      ∃ message,
        (receive handler start (before.bytes ++ (doc.render ++ after.bytes) ++ crlf)).processed =
          [message] ∧ Reader.read spirit message = some doc.value := by
  intro h
  obtain ⟨message, hmessage, hread⟩ := h Spirit.primitives answering blankDoc .none .none
  rw [receive_document] at hmessage
  obtain rfl : blankDoc.strip.render = message := by simpa using hmessage
  rw [read_strip, Option.some.injEq] at hread
  have hstr : Literal.value _ = Literal.value _ := Value.str.inj hread
  exact absurd hstr (by decide)

end Connection

end AnarchNet.Rpc
