import AnarchNet.FFStore.Faults

/-!
# Runs on a store of keys and values

A storage module connects its `kv_put`, `kv_get` and `kv_remove` to the slots of the module manager.
A run is a list of puts, whose calls of the file system may fail, and of removals. `Defined` says
what `kv_get` does after it.
-/

namespace AnarchNet

open FileSystem EStateM

/-- The functions that a storage module connects for keys and values. Calls inside a put may fail. -/
structure KvSlots where
  put : Bytes → Bytes → FaultyStorage Bool
  get : Platform → Bytes → Storage (Bool × KvResMap)
  remove : Platform → Bytes → Storage Bool

/-- A call that changes a store, and for a put which of its calls of the file system fail. -/
inductive KvCall where
  | put (key value : Bytes) (faults : List Bool)
  | remove (key : Bytes)

namespace KvSlots

variable (slots : KvSlots) (platform : Platform)

/-- What a call leaves, whether it returns or throws. -/
def step (world : World) : KvCall → World
  | .put key value faults => ((slots.put key value).run ⟨world, faults⟩).state.world
  | .remove key => ((slots.remove platform key).run world).state

/-- The states that are reached by calls that meet a condition. -/
inductive Reaches (meets : World → KvCall → Prop) (start : World) : World → Prop where
  | start : Reaches meets start start
  | step {world : World} {call : KvCall} (h : Reaches meets start world) (hmeets : meets world call) :
      Reaches meets start (slots.step platform world call)

/-- Getting the key reaches a return statement that returns this: the value that the platform yields
when the control flows off the end does not matter. -/
def GetReturns (key : Bytes) (world : World) (result : Bool × KvResMap) : Prop :=
  ∃ last, ∀ flowOff,
    (slots.get { platform with flowOff := flowOff } key).run world = .ok result last

/-- Getting a short key reaches a return statement. When a put under a short key that holds no value
does not return true, getting the key returns false before and after. -/
structure Defined (noValue : Bytes → FileTree → Prop) (meets : World → KvCall → Prop)
    (world : World) : Prop where
  returns : ∀ key : Bytes, key.length < 128 → ∃ result, GetReturns slots platform key world result
  fails : ∀ (key value : Bytes) (faults : List Bool), key.length < 128 →
    meets world (.put key value faults) → noValue key world.tree →
    ((slots.put key value).run ⟨world, faults⟩).isTrue = false →
    GetReturns slots platform key world (false, []) ∧
      GetReturns slots platform key (slots.step platform world (.put key value faults)) (false, [])

variable {slots platform}

/-- What calls that meet the condition keep is true of every state reached. -/
theorem Reaches.induct {meets : World → KvCall → Prop} {start last : World} {good : World → Prop}
    (h : Reaches slots platform meets start last) (hstart : good start)
    (hstep : ∀ world call, good world → meets world call → good (slots.step platform world call)) :
    good last := by
  induction h with
  | start => exact hstart
  | step _ hmeets ih => exact hstep _ _ ih hmeets

end KvSlots

end AnarchNet
