import AnarchNet.Lib.Delimited
import AnarchNet.Rpc.Request

/-!
# The client's side of a connection

The listener of `rpc.js` for the data that the daemon sends. The daemon writes a mark behind every
response, and the listener keeps what follows the last mark in two globals until more data comes.
Data arrives as ASCII text, so the units of a string are bytes. `JSON.parse` is a parameter, and so
are the functions that the user of the client has registered for the calls under way.
-/

namespace AnarchNet.Rpc

open FileSystem Json EStateM Delimited

/-- The mark behind a response. -/
def mark : Delimiter UInt8 where
  text := ascii "\x7b$\x7d"
  ne_nil := by decide
  borderless := by decide

/-- What the script can throw: `JSON.parse`, a member of null or a call of what is no function, and
whatever a registered function throws. -/
inductive ScriptError where
  | syntaxError
  | typeError
  | thrown

/-- The globals of the listener, and the values that `_cb` was called with. -/
structure Client where
  waiting : Bool
  oldBuffer : Bytes
  calls : List Value

/-- A piece of the script. -/
abbrev Script := EStateM ScriptError Client

/-- `rpc_calls`: the function registered for an id, which is called with the error and the result
and may return or throw. A member that the table inherits, such as `__proto__`, counts as
registered. -/
abbrev Registry := Value → Option (Value → Value → Bool)

namespace Client

/-- The globals at first. -/
def start : Client := ⟨false, [], []⟩

/-- The text that waits for the rest of its response. -/
def pending (client : Client) : Bytes := if client.waiting then client.oldBuffer else []

/-- A member of a value that is not null; only objects have any. -/
def property : Value → Bytes → Option Value
  | .obj fields, name => fields.lookup name
  | _, _ => none

/-- `data.split`. -/
def split (data : Bytes) : List Bytes :=
  match h : cut mark.text data with
  | none => [data]
  | some (front, back) =>
      have := mark.length_lt_of_cut h
      front :: split back
termination_by data.length

/-- `occurrences` of the mark. -/
def occurrences (data : Bytes) : Nat :=
  match h : cut mark.text data with
  | none => 0
  | some (_, back) =>
      have := mark.length_lt_of_cut h
      occurrences back + 1
termination_by data.length

variable (parse : Bytes → Option Value) (registry : Nat → Registry)

/-- `JSON.parse`. -/
def jsonParse (text : Bytes) : Script Value :=
  match parse text with
  | some value => return value
  | none => throw .syntaxError

/-- `_cb`. The functions registered may have changed since the last call. -/
def cb (res : Value) : Script Unit := do
  let client ← get
  set { client with calls := client.calls ++ [res] }
  if res.isNull then throw .typeError
  match property res (ascii "error"), property res (ascii "result") with
  | some error, some result =>
      match property res (ascii "id") with
      | none => return ()
      | some id =>
          match registry client.calls.length id with
          | some call => if call error result then return () else throw .thrown
          | none => return ()
  | _, _ => return ()

/-- The loop over the parts that are complete. -/
def callAll : List Bytes → Script Unit
  | [] => return ()
  | part :: rest => do
      cb registry (← jsonParse parse part)
      callAll rest

/-- The listener once the text that waited is put before the chunk. There is no `console.loge`. -/
def accept (data : Bytes) : Script Unit := do
  if (cut mark.text data).isSome then
    let newset := split data
    let res ← jsonParse parse (newset.headD [])
    if 1 < newset.length then
      if occurrences data = newset.length then throw .typeError
      else
        callAll parse registry newset.dropLast
        modify fun client =>
          { client with oldBuffer := newset.getLast?.getD [], waiting := true }
    else cb registry res
  else modify fun client => { client with oldBuffer := data, waiting := true }

/-- The listener for `data`. -/
def listen (chunk : Bytes) : Script Unit := do
  let client ← get
  if client.waiting then
    set { client with oldBuffer := [], waiting := false }
    accept parse registry (client.oldBuffer ++ chunk)
  else accept parse registry chunk

/-- Chunks that arrive one by one; what the listener throws nobody catches. -/
def deliver : List Bytes → Script Unit
  | [] => return ()
  | chunk :: rest => do
      listen parse registry chunk
      deliver rest

/-- `_cb` returns for a value: it is not null, and the function registered for its id, if it is a
response and there is one, returns. -/
def Handles (calls : Registry) (res : Value) : Prop :=
  res.isNull = false ∧ ∀ error result id call, property res (ascii "error") = some error →
    property res (ascii "result") = some result → property res (ascii "id") = some id →
    calls id = some call → call error result = true

/-- Every frame is JSON, and `_cb` returns for it when it is called for the frames in order, after
a number of earlier calls. -/
def HandlesAll (count : Nat) (frames : List Bytes) : Prop :=
  ∀ index frame, frames[index]? = some frame →
    ∃ value, parse frame = some value ∧ Handles (registry (count + index)) value

variable {parse registry} {client last : Client}

/-- The pieces that `split` yields. -/
theorem split_eq_pieces (data : Bytes) :
    split data = (mark.pieces data).1 ++ [(mark.pieces data).2] := by
  induction hlength : data.length using Nat.strongRecOn generalizing data with
  | ind length ih =>
      rw [split]
      split
      · rename_i hcut
        rw [Delimiter.pieces_of_none hcut, List.nil_append]
      · rename_i front back hcut
        rw [Delimiter.pieces_of_some hcut, List.cons_append,
          ih _ (hlength ▸ mark.length_lt_of_cut hcut) back rfl]

/-- There is one mark less than there are pieces. -/
theorem occurrences_eq_length (data : Bytes) :
    occurrences data = (mark.pieces data).1.length := by
  induction hlength : data.length using Nat.strongRecOn generalizing data with
  | ind length ih =>
      rw [occurrences]
      split
      · rename_i hcut
        rw [Delimiter.pieces_of_none hcut, List.length_nil]
      · rename_i front back hcut
        rw [Delimiter.pieces_of_some hcut, List.length_cons,
          ih _ (hlength ▸ mark.length_lt_of_cut hcut) back rfl]

/-- When `_cb` returns. -/
theorem run_cb_iff (res : Value) :
    (cb registry res).run client = .ok () last ↔
      Handles (registry client.calls.length) res ∧
        last = { client with calls := client.calls ++ [res] } := by
  have hdone {P : Prop} (hP : P) {after : Client} :
      (Result.ok () after : Result ScriptError Client Unit) = .ok () last ↔ P ∧ last = after := by
    rw [Result.ok.injEq, eq_self_iff_true, true_and, and_iff_right hP]
    exact eq_comm
  simp only [cb, EStateM.run_bind, EStateM.run_get, EStateM.run_set, Handles]
  cases hnull : res.isNull with
  | true => simp
  | false =>
      rw [if_neg Bool.false_ne_true]
      -- the branches of the source in which nothing is called return at once
      cases herror : property res (ascii "error") with
      | none => exact hdone ⟨rfl, by simp⟩
      | some error =>
          cases hresult : property res (ascii "result") with
          | none => exact hdone ⟨rfl, by simp⟩
          | some result =>
              cases hid : property res (ascii "id") with
              | none => exact hdone ⟨rfl, by simp⟩
              | some id =>
                  cases hcall : registry client.calls.length id with
                  | none =>
                      simp only [hcall]
                      refine hdone ⟨trivial, fun _ _ other call _ _ hother h => ?_⟩
                      rw [← Option.some.inj hother, hcall] at h
                      cases h
                  | some call =>
                      simp only [hcall]
                      cases hreturn : call error result with
                      | true =>
                          refine hdone ⟨trivial, fun _ _ other found herror hresult hother h => ?_⟩
                          rw [← Option.some.inj hother, hcall] at h
                          cases herror
                          cases hresult
                          cases h
                          exact hreturn
                      | false =>
                          refine iff_of_false (by simp) fun h => ?_
                          have := h.1.2 error result id call rfl rfl rfl hcall
                          simp [hreturn] at this

/-- No frame is left to be handled. -/
theorem handlesAll_nil (count : Nat) : HandlesAll parse registry count [] := by
  simp [HandlesAll]

/-- The first frame is handled, and then the others. -/
theorem handlesAll_cons (count : Nat) (frame : Bytes) (frames : List Bytes) :
    HandlesAll parse registry count (frame :: frames) ↔
      (∃ value, parse frame = some value ∧ Handles (registry count) value) ∧
        HandlesAll parse registry (count + 1) frames := by
  constructor
  · intro h
    refine ⟨h 0 frame rfl, fun index other hother => ?_⟩
    rw [Nat.add_right_comm]
    exact h (index + 1) other hother
  · rintro ⟨hfirst, hrest⟩ index other hother
    cases index with
    | zero =>
        rw [List.getElem?_cons_zero, Option.some.injEq] at hother
        exact hother ▸ hfirst
    | succ index =>
        rw [List.getElem?_cons_succ] at hother
        rw [← Nat.add_assoc, Nat.add_right_comm]
        exact hrest index other hother

/-- Frames that are handled in two parts. -/
theorem handlesAll_append (count : Nat) (first second : List Bytes) :
    HandlesAll parse registry count (first ++ second) ↔
      HandlesAll parse registry count first ∧
        HandlesAll parse registry (count + first.length) second := by
  induction first generalizing count with
  | nil => simp [handlesAll_nil]
  | cons frame first ih =>
      rw [List.cons_append, handlesAll_cons, handlesAll_cons, ih, and_assoc, List.length_cons,
        Nat.add_assoc, Nat.add_comm 1]

/-- Frames that are handled have a value each. -/
theorem HandlesAll.length_filterMap {count : Nat} {frames : List Bytes}
    (h : HandlesAll parse registry count frames) :
    (frames.filterMap parse).length = frames.length := by
  induction frames generalizing count with
  | nil => rfl
  | cons frame frames ih =>
      obtain ⟨⟨value, hvalue, -⟩, hrest⟩ := (handlesAll_cons _ _ _).1 h
      rw [List.filterMap_cons_some hvalue, List.length_cons, List.length_cons, ih hrest]

/-- When the loop over complete parts returns. -/
theorem run_callAll_iff (parts : List Bytes) :
    (callAll parse registry parts).run client = .ok () last ↔
      HandlesAll parse registry client.calls.length parts ∧
        last = { client with calls := client.calls ++ parts.filterMap parse } := by
  induction parts generalizing client with
  | nil =>
      simp only [callAll, EStateM.run_pure, Result.ok.injEq, true_and, handlesAll_nil,
        List.filterMap_nil, List.append_nil]
      exact eq_comm
  | cons part parts ih =>
      rw [callAll, handlesAll_cons]
      cases hvalue : parse part with
      | none => simp [jsonParse, hvalue]
      | some value =>
          have hfilter : (part :: parts).filterMap parse = value :: parts.filterMap parse :=
            List.filterMap_cons_some hvalue
          simp only [jsonParse, hvalue, pure_bind, Option.some.injEq, exists_eq_left', hfilter]
          constructor
          · intro h
            obtain ⟨_, middle, hcb, hrest⟩ := run_bind_eq_ok h
            obtain ⟨hhandles, rfl⟩ := (run_cb_iff value).1 hcb
            obtain ⟨hall, rfl⟩ := ih.1 hrest
            rw [List.length_append] at hall
            exact ⟨⟨hhandles, hall⟩, by simp⟩
          · rintro ⟨⟨hhandles, hall⟩, rfl⟩
            rw [EStateM.run_bind, (run_cb_iff value).2 ⟨hhandles, rfl⟩]
            exact ih.2 ⟨by rwa [List.length_append], by simp⟩

/-- Data with a mark: the first frame is parsed, and then `_cb` is called for every frame. -/
theorem accept_of_frames {data first rest : Bytes} {others : List Bytes}
    (h : mark.pieces data = (first :: others, rest)) :
    accept parse registry data = (do
      let _ ← jsonParse parse first
      callAll parse registry (first :: others)
      modify fun client => { client with oldBuffer := rest, waiting := true }) := by
  have hsplit : split data = (first :: others) ++ [rest] := by rw [split_eq_pieces, h]
  have hmarks : occurrences data = others.length + 1 := by rw [occurrences_eq_length, h]; rfl
  have hcut : (cut mark.text data).isSome = true := by
    cases hcut : cut mark.text data with
    | none => simp [Delimiter.pieces_of_none hcut] at h
    | some pair => rfl
  have hlength : (split data).length = others.length + 2 := by rw [hsplit]; simp
  have hhead : (split data).headD [] = first := by rw [hsplit]; rfl
  have hfront : (split data).dropLast = first :: others := by rw [hsplit, List.dropLast_concat]
  have hlast : (split data).getLast?.getD [] = rest := by
    rw [hsplit, List.getLast?_concat, Option.getD_some]
  have hmany : 1 < others.length + 2 := by omega
  have hmore : others.length + 1 ≠ others.length + 2 := by omega
  simp only [accept, hcut, hlength, hhead, hfront, hlast, hmarks, hmany, hmore, if_true, if_false]

/-- When the listener returns for its data, and what it leaves behind. -/
theorem run_accept_iff (data : Bytes) :
    (accept parse registry data).run client = .ok () last ↔
      HandlesAll parse registry client.calls.length (mark.pieces data).1 ∧
        last = ⟨true, (mark.pieces data).2,
          client.calls ++ (mark.pieces data).1.filterMap parse⟩ := by
  cases hcut : cut mark.text data with
  | none =>
      rw [Delimiter.pieces_of_none hcut, accept, hcut, if_neg (by simp), EStateM.run_modify,
        List.filterMap_nil, List.append_nil, and_iff_right (handlesAll_nil _), Result.ok.injEq,
        and_iff_right rfl]
      exact eq_comm
  | some pair =>
      have hpieces := Delimiter.pieces_of_some hcut
      rw [accept_of_frames hpieces, hpieces]
      constructor
      · intro h
        cases hvalue : parse pair.1 with
        | none => simp [jsonParse, hvalue] at h
        | some value =>
            rw [jsonParse, hvalue, pure_bind] at h
            obtain ⟨_, after, hcalls, h⟩ := run_bind_eq_ok h
            obtain ⟨hall, rfl⟩ := (run_callAll_iff _).1 hcalls
            rw [EStateM.run_modify, Result.ok.injEq] at h
            exact ⟨hall, h.2.symm⟩
      · rintro ⟨hall, rfl⟩
        obtain ⟨⟨value, hvalue, -⟩, -⟩ := (handlesAll_cons _ _ _).1 hall
        rw [jsonParse, hvalue, pure_bind, EStateM.run_bind, (run_callAll_iff _).2 ⟨hall, rfl⟩]
        rfl

/-- When the listener returns for a chunk, and what it leaves behind. -/
theorem run_listen_iff (chunk : Bytes) :
    (listen parse registry chunk).run client = .ok () last ↔
      HandlesAll parse registry client.calls.length (mark.pieces (client.pending ++ chunk)).1 ∧
        last = ⟨true, (mark.pieces (client.pending ++ chunk)).2,
          client.calls ++ (mark.pieces (client.pending ++ chunk)).1.filterMap parse⟩ := by
  rcases client with ⟨waiting, oldBuffer, calls⟩
  cases waiting with
  | true => exact run_accept_iff (oldBuffer ++ chunk)
  | false => exact run_accept_iff chunk

/-- Chunks whose frames are all handled are delivered. -/
theorem run_deliver (chunks : List Bytes) (hpending : cut mark.text client.pending = none)
    (h : HandlesAll parse registry client.calls.length
      (mark.pieces (client.pending ++ chunks.flatten)).1) :
    ∃ last, (deliver parse registry chunks).run client = .ok () last ∧
      last.calls = client.calls ++
        (mark.pieces (client.pending ++ chunks.flatten)).1.filterMap parse ∧
      last.pending = (mark.pieces (client.pending ++ chunks.flatten)).2 := by
  induction chunks generalizing client with
  | nil =>
      refine ⟨client, rfl, ?_⟩
      rw [List.flatten_nil, List.append_nil, Delimiter.pieces_of_none hpending]
      simp
  | cons chunk chunks ih =>
      rw [List.flatten_cons, ← List.append_assoc, Delimiter.pieces_append] at h ⊢
      rw [handlesAll_append] at h
      obtain ⟨hfirst, hrest⟩ := h
      have hlisten := (run_listen_iff chunk).2 ⟨hfirst, rfl⟩
      obtain ⟨last, hrun, hcalls, hlast⟩ := @ih
        ⟨true, _, _⟩ (Delimiter.cut_pieces_snd _) (by
          rwa [← hfirst.length_filterMap, ← List.length_append] at hrest)
      refine ⟨last, ?_, ?_, hlast⟩
      · rw [deliver, EStateM.run_bind, hlisten]
        exact hrun
      · rw [hcalls, List.append_assoc, ← List.filterMap_append]
        rfl

/-- Chunks that are delivered had all their frames handled. -/
theorem handlesAll_of_run_deliver {chunks : List Bytes}
    (hpending : cut mark.text client.pending = none)
    (h : (deliver parse registry chunks).run client = .ok () last) :
    HandlesAll parse registry client.calls.length
      (mark.pieces (client.pending ++ chunks.flatten)).1 := by
  induction chunks generalizing client with
  | nil =>
      rw [List.flatten_nil, List.append_nil, Delimiter.pieces_of_none hpending]
      exact handlesAll_nil _
  | cons chunk chunks ih =>
      obtain ⟨_, middle, hlisten, hrest⟩ := run_bind_eq_ok h
      obtain ⟨hfirst, rfl⟩ := (run_listen_iff chunk).1 hlisten
      have hlater := ih (Delimiter.cut_pieces_snd _) hrest
      rw [List.length_append, hfirst.length_filterMap] at hlater
      rw [List.flatten_cons, ← List.append_assoc, Delimiter.pieces_append, handlesAll_append]
      exact ⟨hfirst, hlater⟩

/-- Frames that are JSON have their values in order. -/
theorem map_some_filterMap {frames : List Bytes}
    (h : ∀ frame ∈ frames, (parse frame).isSome = true) :
    (frames.filterMap parse).map some = frames.map parse := by
  induction frames with
  | nil => rfl
  | cons frame frames ih =>
      obtain ⟨value, hvalue⟩ := Option.isSome_iff_exists.1 (h frame (by simp))
      rw [List.filterMap_cons_some hvalue, List.map_cons, List.map_cons, hvalue,
        ih fun other hother => h other (by simp [hother])]

/-- However a stream of frames is cut into chunks, `_cb` is called on the value of every frame once
and in order and the tail is kept, exactly if no frame is the JSON text of null and no function
called for a frame throws. -/
theorem frames_called_iff (parse : Bytes → Option Value) (registry : Nat → Registry)
    (frames : List Bytes) (tail : Bytes) (chunks : List Bytes)
    (hjson : ∀ frame ∈ frames, (parse frame).isSome = true)
    (hframes : ∀ frame ∈ frames, ¬ mark.text <:+: frame) (htail : ¬ mark.text <:+: tail)
    (hstream : chunks.flatten = (frames.map (· ++ mark.text)).flatten ++ tail) :
    (∃ last, (deliver parse registry chunks).run start = .ok () last ∧
        last.calls.map some = frames.map parse ∧ last.pending = tail) ↔
      ∀ index value, (frames[index]?).bind parse = some value → Handles (registry index) value := by
  have hpieces : mark.pieces (start.pending ++ chunks.flatten) = (frames, tail) := by
    rw [hstream]
    exact Delimiter.pieces_stream frames tail hframes htail
  have hstart : cut mark.text start.pending = none := by decide
  have hall : HandlesAll parse registry 0 frames ↔
      ∀ index value, (frames[index]?).bind parse = some value →
        Handles (registry index) value := by
    constructor
    · intro h index value hvalue
      obtain ⟨frame, hframe, hparse⟩ := Option.bind_eq_some_iff.1 hvalue
      obtain ⟨other, hother, hhandles⟩ := h index frame hframe
      rw [hother, Option.some.injEq] at hparse
      rwa [hparse, Nat.zero_add] at hhandles
    · intro h index frame hframe
      obtain ⟨value, hvalue⟩ :=
        Option.isSome_iff_exists.1 (hjson frame (List.mem_of_getElem? hframe))
      refine ⟨value, hvalue, ?_⟩
      rw [Nat.zero_add]
      exact h index value (Option.bind_eq_some_iff.2 ⟨frame, hframe, hvalue⟩)
  rw [← hall]
  constructor
  · rintro ⟨last, hrun, -⟩
    have h := handlesAll_of_run_deliver hstart hrun
    rwa [hpieces] at h
  · intro h
    obtain ⟨last, hrun, hcalls, hpending⟩ := run_deliver chunks hstart (by rwa [hpieces])
    rw [hpieces] at hcalls hpending
    exact ⟨last, hrun, by rw [hcalls]; exact map_some_filterMap hjson, hpending⟩

/-- `JSON.parse` on a few texts. -/
def sampleParse (text : Bytes) : Option Value :=
  if text = ascii "null" then some .null
  else if text = ascii "\x7b\x7d" then some (.obj [])
  else none

/-- Two empty objects, with the mark of the first one cut in two. -/
theorem frames_called_sample :
    ∃ last, (deliver sampleParse (fun _ _ => none) [ascii "\x7b\x7d\x7b", ascii "$\x7d\x7b\x7d",
        ascii "\x7b$\x7d\x7b"]).run start = .ok () last ∧
      last.calls.map some = [ascii "\x7b\x7d", ascii "\x7b\x7d"].map sampleParse ∧
        last.pending = ascii "\x7b" := by
  refine (frames_called_iff sampleParse (fun _ _ => none) [ascii "\x7b\x7d", ascii "\x7b\x7d"]
    (ascii "\x7b") _ (by decide) (by decide) (by decide) (by decide)).2 ?_
  intro index value h
  obtain ⟨frame, hframe, hvalue⟩ := Option.bind_eq_some_iff.1 h
  have hmem := List.mem_of_getElem? hframe
  simp only [List.mem_cons, List.not_mem_nil, or_false, or_self] at hmem
  rw [hmem, show sampleParse (ascii "\x7b\x7d") = some (.obj []) from rfl,
    Option.some.injEq] at hvalue
  rw [← hvalue]
  exact ⟨rfl, fun _ _ _ _ herror => by simp [property] at herror⟩

/-- After the text of null nothing is called any more. -/
theorem frames_lost_after_null :
    ∃ fault last, (deliver sampleParse (fun _ _ => none)
        [ascii "null\x7b$\x7d\x7b\x7d\x7b$\x7d"]).run start = .error fault last ∧
      last.calls = [.null] ∧
      last.calls.map some ≠ [ascii "null", ascii "\x7b\x7d"].map sampleParse := by
  refine ⟨.typeError, ⟨false, [], [.null]⟩, ?_, rfl, ?_⟩
  · have hpieces : mark.pieces (ascii "null\x7b$\x7d\x7b\x7d\x7b$\x7d") =
        (ascii "null" :: [ascii "\x7b\x7d"], []) :=
      Delimiter.pieces_stream [ascii "null", ascii "\x7b\x7d"] [] (by decide) (by decide)
    have hlisten : (listen sampleParse (fun _ _ => none)
          (ascii "null\x7b$\x7d\x7b\x7d\x7b$\x7d")).run start =
        .error .typeError ⟨false, [], [.null]⟩ := by
      change (accept sampleParse (fun _ _ => none) (ascii "null\x7b$\x7d\x7b\x7d\x7b$\x7d")).run
        start = _
      rw [accept_of_frames hpieces]
      rfl
    rw [deliver, EStateM.run_bind, hlisten]
  · simp

end Client

end AnarchNet.Rpc
