import AnarchNet.Rpc.Request

/-!
# Objects and their storage

`db::Object`, `db::Diff` and `DBManager`. An object keeps its newest content and one diff per
change, and is stored as one archive text under its id. Diffs come from a library, which does not
make a patch for all contents, and so does the archive, of which the round trip is all that is
assumed.
-/

namespace AnarchNet

open FileSystem

namespace Db

/-- `Diff`, with the fields that are archived. -/
structure Diff where
  id : Bytes
  snapshot : Bytes
  content : Bytes
  time : Nat
  prev : Bytes

/-- `Object`, with the fields that are archived. -/
structure Object where
  id : Bytes
  master : Bytes
  diffs : List Diff
  head : Bytes

/-- `Object()`. -/
def Object.new : Object := { id := [], master := [], diffs := [], head := [] }

/-- The libraries that objects rest on: the patch text between two contents, which is nothing if
`patch_make` or `patch_toText` does not return, and the text archive. Loading overwrites an object;
when it throws, it leaves some object behind. -/
structure Library where
  patch : Bytes → Bytes → Option Bytes
  save : Object → Bytes
  load : Bytes → Object → Except Object Object
  load_save : ∀ object target, load (save object) target = .ok object

/-- The text of a patch that is made. -/
def Library.patchText (library : Library) (old new : Bytes) : Bytes :=
  (library.patch old new).getD []

end Db

open Db

/-- The daemon as the object code sees it: hash function, libraries and key-value plugins. -/
structure Daemon where
  sha : Sha512
  library : Library
  plugins : List KvPlugin

namespace Daemon

variable (daemon : Daemon)

/-- `Diff(content, prev)` at a time: the id of a diff is the hash of its content. -/
def newDiff (now : Nat) (content prev : Bytes) : Diff where
  id := toHex (daemon.sha.hash content)
  snapshot := []
  content := content
  time := now
  prev := prev

/-- `patch_toText` of `patch_make`. -/
def makePatch {σ : Type} (old new : Bytes) : EStateM Exception σ Bytes :=
  match daemon.library.patch old new with
  | some patch => return patch
  | none => throw .undefined

/-- `DBManager::create_object`. -/
def createObject (object : Object) : Storage Bool :=
  ModuleManager.kvPut daemon.plugins object.id (daemon.library.save object)

/-- `DBManager::delete_object`. -/
def deleteObject (id : Bytes) : Storage Bool := ModuleManager.kvRemove daemon.plugins id

/-- The loop of `get_object_head`: the first text that loads is the object. -/
def loadFirst : KvResMap → Object → Bool × Object
  | [], object => (false, object)
  | (_, text) :: rest, object =>
      match daemon.library.load text object with
      | .ok loaded => (true, loaded)
      | .error overwritten => loadFirst rest overwritten

/-- `DBManager::get_object_head`. -/
def getObjectHead (id : Bytes) (object : Object) : Storage (Bool × Object) := do
  let object := { object with id := id }
  let (found, result) ← ModuleManager.kvGet daemon.plugins id []
  if found then return daemon.loadFirst result object
  else return (false, object)

/-- `Object::save`. -/
def save (object : Object) : Storage Bool := do
  if ← daemon.deleteObject object.id then daemon.createObject object
  else return false

/-- The object after a new content. -/
def updated (object : Object) (now : Nat) (content : Bytes) : Object :=
  let diff := daemon.newDiff now (daemon.library.patchText object.head content) object.master
  { object with diffs := object.diffs ++ [diff], master := diff.id, head := content }

/-- `DBManager::update_object` on a loaded object. -/
def updateObject (object : Object) (now : Nat) (content : Bytes) : Storage (Bool × Object) := do
  let _ ← daemon.makePatch object.head content
  let object := daemon.updated object now content
  let saved ← daemon.save object
  return (saved, object)

/-- The object that `Object::create` with an id makes. -/
def created (object : Object) (now : Nat) (content id : Bytes) : Object :=
  let diff := daemon.newDiff now (daemon.library.patchText [] content) []
  { id := id, master := diff.id, diffs := object.diffs ++ [diff], head := content }

/-- `Object::create` with an id. -/
def create (object : Object) (now : Nat) (content id : Bytes) : Storage (Bool × Object) := do
  let _ ← daemon.makePatch [] content
  let object := daemon.created object now content id
  let stored ← daemon.createObject object
  return (stored, object)

/-- `Object::create` without an id: the id is made from the content. -/
def createAnonymous (object : Object) (now : Nat) (content : Bytes) : Storage (Bool × Object) :=
  daemon.create object now content
    (toHex (daemon.sha.hash (ascii "OBJECT" ++ daemon.sha.hash content)))

/-- The id that is made from a content. -/
def derivedId (content : Bytes) : Bytes :=
  toHex (daemon.sha.hash (ascii "OBJECT" ++ daemon.sha.hash content))

/-- The library makes a patch. -/
def Makes (old new : Bytes) : Prop := (daemon.library.patch old new).isSome = true

/-- Whether a patch is made is seen by making it. -/
instance (old new : Bytes) : Decidable (daemon.Makes old new) :=
  inferInstanceAs (Decidable ((daemon.library.patch old new).isSome = true))

variable {daemon} {σ : Type} {old new : Bytes}

/-- No patch is made. -/
theorem not_makes_iff : ¬ daemon.Makes old new ↔ daemon.library.patch old new = none := by
  rw [Makes, Bool.not_eq_true, Option.isSome_eq_false_iff, Option.isNone_iff_eq_none]

/-- A patch that is made is returned. -/
theorem run_makePatch (h : daemon.Makes old new) (state : σ) :
    (daemon.makePatch old new).run state = .ok (daemon.library.patchText old new) state := by
  obtain ⟨patch, hpatch⟩ := Option.isSome_iff_exists.1 h
  simp only [makePatch, Library.patchText, hpatch, Option.getD_some]
  rfl

/-- A patch that is not made changes nothing. -/
theorem run_makePatch_not (h : ¬ daemon.Makes old new) (state : σ) :
    (daemon.makePatch old new).run state = .error .undefined state := by
  simp only [makePatch, not_makes_iff.1 h]
  rfl

/-- An object is created once its patch is made. -/
theorem run_create {content : Bytes} (h : daemon.Makes [] content) (object : Object) (now : Nat)
    (id : Bytes) (world : World) :
    (daemon.create object now content id).run world =
      (do
        let stored ← daemon.createObject (daemon.created object now content id)
        return (stored, daemon.created object now content id) : Storage _).run world := by
  rw [create, EStateM.run_bind, run_makePatch h]

/-- An object is saved once its patch is made. -/
theorem run_updateObject {object : Object} {content : Bytes} (h : daemon.Makes object.head content)
    (now : Nat) (world : World) :
    (daemon.updateObject object now content).run world =
      (do
        let saved ← daemon.save (daemon.updated object now content)
        return (saved, daemon.updated object now content) : Storage _).run world := by
  rw [updateObject, EStateM.run_bind, run_makePatch h]

end Daemon

end AnarchNet
