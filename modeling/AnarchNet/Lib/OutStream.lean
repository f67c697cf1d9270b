import AnarchNet.Lib.FileSpecs

/-!
# Output streams

A stream has a place in its file and a buffer of bytes that it has not written yet. What it has
written reaches the file when the buffer is full, when a write is long, and when the stream is
closed. Programs are modelled as if every byte reached the file at once: `settled_run` says that
the file then holds what it will hold when the stream is closed. This differs from what is in the
file before that, so a program that reads a file or opens it again while it is being written has to
look at the stream.
-/

namespace FileSystem

/-! ## Writing over a text -/

/-- A text cut or filled up with zero bytes to a length. -/
def padTo (length : Nat) (text : Bytes) : Bytes :=
  (text ++ List.replicate length 0).take length

/-- Filling up gives the length asked for. -/
@[simp] theorem length_padTo (length : Nat) (text : Bytes) :
    (padTo length text).length = length := by
  simp [padTo]

/-- A text of the right length stays as it is. -/
theorem padTo_length {length : Nat} {text : Bytes} (h : text.length = length) :
    padTo length text = text := by
  rw [padTo, List.take_left' h]

/-- A shorter front part of a text that was filled up. -/
theorem take_padTo {first second : Nat} (h : first ≤ second) (text : Bytes) :
    (padTo second text).take first = padTo first text := by
  have hsplit : List.replicate second (0 : UInt8) =
      List.replicate first 0 ++ List.replicate (second - first) 0 := by
    rw [List.replicate_append_replicate, Nat.add_sub_cancel' h]
  have hlength : first ≤ (text ++ List.replicate first (0 : UInt8)).length := by simp
  rw [padTo, padTo, List.take_take, Nat.min_eq_left h, hsplit, ← List.append_assoc,
    List.take_append_of_le_length hlength]

/-- A longer text that was filled up begins with a front part and goes on with its rest. -/
theorem padTo_append {length : Nat} {front : Bytes} (h : length ≤ front.length) (rest : Bytes) :
    padTo length (front ++ rest) = front.take length := by
  rw [padTo, List.append_assoc, List.take_append_of_le_length h]

/-- Writing over a text fills it up to the place of writing. -/
theorem overlay_eq_padTo (old : Bytes) (position : Nat) (new : Bytes) :
    overlay old position new = padTo position old ++ new ++ old.drop (position + new.length) := by
  have hpad : padTo position old =
      old.take position ++ List.replicate (position - old.length) 0 := by
    rw [padTo, List.take_append, List.take_replicate, Nat.min_eq_left (Nat.sub_le _ _)]
  rw [overlay, hpad]

/-- What stands in a text up to the end of what was written. -/
theorem padTo_overlay_end (old : Bytes) (position : Nat) (new : Bytes) :
    padTo (position + new.length) (overlay old position new) = padTo position old ++ new := by
  have hlength : (padTo position old ++ new).length = position + new.length := by simp
  rw [overlay_eq_padTo, padTo_append hlength.ge, List.take_of_length_le hlength.le]

/-- Writing leaves what stands behind it. -/
theorem drop_overlay {old new : Bytes} {position place : Nat} (h : position + new.length ≤ place) :
    (overlay old position new).drop place = old.drop place := by
  have hlength : (padTo position old ++ new).length = position + new.length := by simp
  rw [overlay_eq_padTo, List.drop_append, List.drop_eq_nil_of_le (hlength.le.trans h), hlength,
    List.nil_append, List.drop_drop, Nat.add_sub_cancel' h]

/-- How long a text is after writing over it. -/
theorem length_overlay (old : Bytes) (position : Nat) (new : Bytes) :
    (overlay old position new).length = max old.length (position + new.length) := by
  rw [overlay_eq_padTo, List.length_append, List.length_append, length_padTo, List.length_drop]
  omega

/-- Writing at the end of a front part leaves it and replaces what follows it. -/
theorem overlay_append {front : Bytes} {position : Nat} (h : front.length = position)
    (back new : Bytes) :
    overlay (front ++ back) position new = front ++ new ++ back.drop new.length := by
  have hle : position ≤ (front ++ back).length := by
    rw [List.length_append, h]
    exact Nat.le_add_right _ _
  rw [overlay, List.take_left' h, Nat.sub_eq_zero_of_le hle, List.replicate_zero, List.append_nil,
    ← List.drop_drop, List.drop_left' h]

/-- Writing twice in a row is writing once. -/
theorem overlay_overlay (old : Bytes) (position : Nat) (first second : Bytes) :
    overlay (overlay old position first) (position + first.length) second =
      overlay old position (first ++ second) := by
  have hlength : (padTo position old ++ first).length = position + first.length := by simp
  rw [overlay_eq_padTo old, overlay_append hlength, overlay_eq_padTo old, List.drop_drop,
    List.length_append, List.append_assoc (padTo position old), Nat.add_assoc]

/-! ## Streams -/

/-- An open output stream: the end of what it has written, and the bytes in its buffer. -/
structure OutStream where
  position : Nat
  waiting : Bytes
  deriving DecidableEq

namespace OutStream

/-- A stream that was just opened. -/
def opened : OutStream := ⟨0, []⟩

/-- The number of bytes that wait in a buffer at most. -/
def capacity : Nat := 8191

/-- The number of bytes that were put into the stream. -/
def length (stream : OutStream) : Nat := stream.position + stream.waiting.length

/-- The buffer and more bytes are written to the file. -/
def flush (stream : OutStream) (bytes : Bytes) : OutStream := ⟨stream.length + bytes.length, []⟩

/-- More bytes wait in the buffer. -/
def keep (stream : OutStream) (bytes : Bytes) : OutStream :=
  ⟨stream.position, stream.waiting ++ bytes⟩

/-- A write is flushed: the buffer has no room for it, or it is long. -/
def flushes (direct : Nat) (stream : OutStream) (bytes : Bytes) : Bool :=
  min direct (capacity - stream.waiting.length) ≤ bytes.length

/-- `write`. -/
def write (direct : Nat) (stream : OutStream) (bytes : Bytes) : OutStream :=
  if flushes direct stream bytes then stream.flush bytes else stream.keep bytes

/-- One piece that `<<` reads from the buffer of another stream. A single byte waits while there is
room for it. -/
def insertPiece (direct : Nat) (stream : OutStream) (piece : Bytes) : OutStream :=
  if piece.length = 1 then
    if stream.waiting.length < capacity then stream.keep piece else stream.flush piece
  else stream.write direct piece

/-- `<<` of the buffer of another stream, which is filled with up to `capacity` bytes at a time. -/
def insertPieces (direct : Nat) : Nat → OutStream → Bytes → OutStream
  | 0, stream, _ => stream
  | count + 1, stream, bytes =>
      if bytes = [] then stream
      else insertPieces direct count (stream.insertPiece direct (bytes.take capacity))
        (bytes.drop capacity)

/-- `<<` of the buffer of another stream with these bytes. -/
def insert (direct : Nat) (stream : OutStream) (bytes : Bytes) : OutStream :=
  stream.insertPieces direct bytes.length bytes

variable {direct : Nat} {stream : OutStream} {bytes : Bytes}

@[simp] theorem length_opened : opened.length = 0 := rfl

@[simp] theorem length_flush : (stream.flush bytes).length = stream.length + bytes.length := rfl

@[simp] theorem length_keep : (stream.keep bytes).length = stream.length + bytes.length := by
  simp [keep, length, Nat.add_assoc]

@[simp] theorem insert_nil : stream.insert direct [] = stream := rfl

@[simp] theorem length_write :
    (stream.write direct bytes).length = stream.length + bytes.length := by
  rw [write]
  split <;> simp

@[simp] theorem length_insertPiece :
    (stream.insertPiece direct bytes).length = stream.length + bytes.length := by
  rw [insertPiece]
  split
  · split <;> simp
  · exact length_write

/-- Every byte is put into the stream. -/
@[simp] theorem length_insert :
    (stream.insert direct bytes).length = stream.length + bytes.length := by
  have hpieces : ∀ count (stream : OutStream) (bytes : Bytes), bytes.length ≤ count →
      (stream.insertPieces direct count bytes).length = stream.length + bytes.length := by
    intro count
    induction count with
    | zero =>
        intro stream bytes hcount
        rw [Nat.le_zero.1 hcount]
        rfl
    | succ count ih =>
        intro stream bytes hcount
        rw [insertPieces]
        split
        · next hnil => simp [hnil]
        · next hnil =>
            have hpos := List.length_pos_of_ne_nil hnil
            have hrest : (bytes.drop capacity).length ≤ count := by
              rw [List.length_drop, capacity]
              omega
            rw [ih _ _ hrest, length_insertPiece, List.length_take, List.length_drop]
            omega
  exact hpieces bytes.length stream bytes le_rfl

/-- So is every byte of some writes. -/
theorem length_writes (pieces : List Bytes) :
    (pieces.foldl (write direct) stream).length = stream.length + pieces.flatten.length := by
  induction pieces generalizing stream with
  | nil => rfl
  | cons piece pieces ih =>
      rw [List.foldl_cons, ih, length_write, List.flatten_cons, List.length_append, Nat.add_assoc]

/-! ## What reaches the file -/

/-- What happens to a file while it is being written: bytes are put into the stream, or the file is
replaced through another stream. -/
inductive Event where
  | put (bytes : Bytes)
  | replace (text : Bytes)

/-- A file and the stream that writes it. Whether bytes are flushed is left open. -/
def step (flushes : OutStream → Bytes → Bool) (state : Bytes × OutStream) :
    Event → Bytes × OutStream
  | .put bytes =>
      if flushes state.2 bytes then
        (overlay state.1 state.2.position (state.2.waiting ++ bytes), state.2.flush bytes)
      else (state.1, state.2.keep bytes)
  | .replace text => (text, state.2)

/-- The same, if every byte reaches the file at once. What waits is written again over a text that
replaces the file. -/
def stepAtOnce (flushes : OutStream → Bytes → Bool) (state : Bytes × OutStream) :
    Event → Bytes × OutStream
  | .put bytes =>
      (overlay state.1 state.2.length bytes,
        if flushes state.2 bytes then state.2.flush bytes else state.2.keep bytes)
  | .replace text => (overlay text state.2.position state.2.waiting, state.2)

/-- What the file holds when the stream is closed. -/
def settled (state : Bytes × OutStream) : Bytes :=
  overlay state.1 state.2.position state.2.waiting

/-- A step settles to the step that reaches the file at once. -/
theorem settled_step (flushes : OutStream → Bytes → Bool) (state : Bytes × OutStream)
    (event : Event) :
    (settled (step flushes state event), (step flushes state event).2) =
      stepAtOnce flushes (settled state, state.2) event := by
  cases event with
  | replace text => rfl
  | put bytes =>
      have hwrite : overlay (settled state) state.2.length bytes =
          overlay state.1 state.2.position (state.2.waiting ++ bytes) :=
        overlay_overlay state.1 state.2.position state.2.waiting bytes
      rw [step, stepAtOnce, hwrite]
      by_cases hflush : flushes state.2 bytes = true
      · have hlength : (overlay state.1 state.2.position (state.2.waiting ++ bytes)).length ≥
            state.2.length + bytes.length := by
          rw [length_overlay, List.length_append, ← Nat.add_assoc]
          exact le_max_right _ _
        simp only [hflush, if_true, settled, flush, Prod.mk.injEq, and_true]
        rw [overlay_eq_padTo, List.append_nil, List.length_nil, Nat.add_zero, padTo,
          List.take_append_of_le_length hlength, List.take_append_drop]
      · simp only [hflush, Bool.false_eq_true, if_false, settled, keep]

/-- However the bytes reach the file, when the stream is closed it holds what it would hold if every
byte had reached it at once. -/
theorem settled_run (flushes : OutStream → Bytes → Bool) (state : Bytes × OutStream)
    (events : List Event) :
    (settled (events.foldl (step flushes) state), (events.foldl (step flushes) state).2) =
      events.foldl (stepAtOnce flushes) (settled state, state.2) := by
  induction events generalizing state with
  | nil => rfl
  | cons event events ih =>
      rw [List.foldl_cons, List.foldl_cons, ih, ← settled_step]

end OutStream

end FileSystem
