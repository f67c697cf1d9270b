import AnarchNet.Rpc.Objects

/-!
# Objects that fail to load

`get_object_head` loads each text stored under an id into the object that its caller holds, until
one of them loads. A text that ends early has assigned its first fields by then. `left_alone_iff`
says for which texts the object comes out of a failed call as it went in.
-/

namespace AnarchNet

open FileSystem EStateM

namespace Db

/-- What a text assigns, field by field, until it ends or a field cannot be read. Diffs that can
only be read in part are assigned in part. -/
inductive Fields where
  | nothing
  | upToId (id : Bytes)
  | upToMaster (id master : Bytes)
  | upToDiffs (id master : Bytes) (diffs : List Diff)
  | whole (object : Object)

namespace Fields

/-- The object after the fields are assigned. -/
def assign : Fields → Object → Object
  | nothing, object => object
  | upToId id, object => { object with id := id }
  | upToMaster id master, object => { object with id := id, master := master }
  | upToDiffs id master diffs, object =>
      { object with id := id, master := master, diffs := diffs }
  | whole object, _ => object

/-- Loading throws unless all fields are assigned. -/
def load (fields : Fields) (object : Object) : Except Object Object :=
  match fields with
  | whole object => .ok object
  | _ => .error (fields.assign object)

/-- All fields are assigned. -/
def isWhole : Fields → Bool
  | whole _ => true
  | _ => false

/-- The master, if it is assigned. -/
def master? : Fields → Option Bytes
  | nothing => none
  | upToId _ => none
  | upToMaster _ master => some master
  | upToDiffs _ master _ => some master
  | whole object => some object.master

/-- The diffs, if they are assigned. -/
def diffs? : Fields → Option (List Diff)
  | nothing => none
  | upToId _ => none
  | upToMaster _ _ => none
  | upToDiffs _ _ diffs => some diffs
  | whole object => some object.diffs

theorem master_assign (fields : Fields) (object : Object) :
    (fields.assign object).master = fields.master?.getD object.master := by
  cases fields <;> rfl

theorem diffs_assign (fields : Fields) (object : Object) :
    (fields.assign object).diffs = fields.diffs?.getD object.diffs := by
  cases fields <;> rfl

variable {fields : Fields} (object : Object)

/-- The head is the last field. -/
theorem head_assign (h : fields.isWhole = false) : (fields.assign object).head = object.head := by
  cases fields with
  | whole object => exact absurd h (by simp [isWhole])
  | _ => rfl

/-- Loading throws unless all fields are assigned. -/
theorem load_of_not_whole (h : fields.isWhole = false) :
    fields.load object = .error (fields.assign object) := by
  cases fields with
  | whole object => exact absurd h (by simp [isWhole])
  | _ => rfl

end Fields

/-- The archive reads these fields from each text and assigns them in their order. -/
def Library.Reads (library : Library) (fields : Bytes → Fields) : Prop :=
  ∀ text object, library.load text object = (fields text).load object

end Db

open Db

namespace Daemon

variable (daemon : Daemon)

/-- The object `before` is left alone by what it became: its content is the same, and `create` makes
an object with one diff if it had none. -/
structure LeftAlone (before after : Object) : Prop where
  master : after.master = before.master
  diffs : after.diffs = before.diffs
  head : after.head = before.head
  created : before.diffs = [] →
    ∀ now content id, (daemon.created after now content id).diffs.length = 1

/-- A call of `get_object_head` that returns false leaves its object alone. -/
def FailsCleanly (id : Bytes) (object : Object) (world : World) : Prop :=
  ∀ after last, (daemon.getObjectHead id object).run world = .ok (false, after) last →
    daemon.LeftAlone object after

variable {daemon} {fields : Bytes → Fields}

/-- An object with the same content is left alone. -/
theorem LeftAlone.of_content {before after : Object} (hmaster : after.master = before.master)
    (hdiffs : after.diffs = before.diffs) (hhead : after.head = before.head) :
    daemon.LeftAlone before after :=
  ⟨hmaster, hdiffs, hhead, fun hnone now content id => by simp [Daemon.created, hdiffs, hnone]⟩

/-- The first whole text is the object. -/
theorem loadFirst_of_whole (hreads : daemon.library.Reads fields) {result : KvResMap}
    (h : ∃ entry ∈ result, (fields entry.2).isWhole = true) (object : Object) :
    (daemon.loadFirst result object).1 = true := by
  induction result generalizing object with
  | nil => simp at h
  | cons entry rest ih =>
      obtain ⟨key, text⟩ := entry
      cases hfields : fields text with
      | whole loaded => simp [loadFirst, hreads text, hfields, Fields.load]
      | _ =>
          have hrest : ∃ entry ∈ rest, (fields entry.2).isWhole = true := by
            simpa [hfields, Fields.isWhole] using h
          rw [loadFirst, hreads text, hfields]
          exact ih hrest _

/-- Texts of which none is whole are assigned one after the other. -/
theorem loadFirst_of_not_whole (hreads : daemon.library.Reads fields) {result : KvResMap}
    (h : ∀ entry ∈ result, (fields entry.2).isWhole = false) (object : Object) :
    daemon.loadFirst result object =
      (false, result.foldl (fun object entry => (fields entry.2).assign object) object) := by
  induction result generalizing object with
  | nil => rfl
  | cons entry rest ih =>
      obtain ⟨key, text⟩ := entry
      have htext : (fields text).isWhole = false := h (key, text) (by simp)
      rw [loadFirst, hreads text, Fields.load_of_not_whole object htext]
      exact ih (fun other hother => h other (by simp [hother])) _

/-- A field of the object after some texts is the last one that they assign. -/
theorem foldl_assign (fields : Bytes → Fields) {α : Type} {field : Object → α}
    {read? : Fields → Option α}
    (hassign : ∀ (read : Fields) object,
      field (read.assign object) = (read? read).getD (field object))
    (result : KvResMap) (object : Object) :
    field (result.foldl (fun object entry => (fields entry.2).assign object) object) =
      (result.filterMap fun entry => read? (fields entry.2)).getLastD (field object) := by
  induction result generalizing object with
  | nil => rfl
  | cons entry rest ih =>
      rw [List.foldl_cons, ih, hassign, List.filterMap_cons]
      cases read? (fields entry.2) with
      | none => rfl
      | some value => rw [List.getLastD_cons, Option.getD_some]

/-- Texts of which none is whole leave the head alone. -/
theorem head_foldl_assign {result : KvResMap}
    (h : ∀ entry ∈ result, (fields entry.2).isWhole = false) (object : Object) :
    (result.foldl (fun object entry => (fields entry.2).assign object) object).head =
      object.head := by
  induction result generalizing object with
  | nil => rfl
  | cons entry rest ih =>
      rw [List.foldl_cons, ih fun other hother => h other (by simp [hother]),
        Fields.head_assign object (h entry (by simp))]

/-- The texts do not spoil an object: one of them is whole, or the last master and the last diffs
that they assign are those that the object has. -/
def Unspoilt (fields : Bytes → Fields) (object : Object) (result : KvResMap) : Prop :=
  (∃ entry ∈ result, (fields entry.2).isWhole = true) ∨
    ((result.filterMap fun entry => (fields entry.2).master?).getLastD object.master =
        object.master ∧
      (result.filterMap fun entry => (fields entry.2).diffs?).getLastD object.diffs = object.diffs)

/-- A failed call leaves its object alone exactly if the texts stored under the id do not spoil
it. -/
theorem left_alone_iff (daemon : Daemon) (fields : Bytes → Fields) (id : Bytes) (object : Object)
    (world : World) (hreads : daemon.library.Reads fields) :
    daemon.FailsCleanly id object world ↔
      ∀ result last,
        (ModuleManager.kvGet daemon.plugins id []).run world = .ok (true, result) last →
          Unspoilt fields object result := by
  constructor
  · intro h result last hget
    by_cases hwhole : ∃ entry ∈ result, (fields entry.2).isWhole = true
    · exact .inl hwhole
    have hnone : ∀ entry ∈ result, (fields entry.2).isWhole = false := by
      simpa using hwhole
    have hrun : (daemon.getObjectHead id object).run world =
        .ok (daemon.loadFirst result { object with id := id }) last := by
      simp only [getObjectHead, run_bind, hget, if_true, run_pure]
    rw [loadFirst_of_not_whole hreads hnone] at hrun
    have halone := h _ last hrun
    have hmaster := foldl_assign fields Fields.master_assign result { object with id := id }
    have hdiffs := foldl_assign fields Fields.diffs_assign result { object with id := id }
    exact .inr ⟨hmaster.symm.trans halone.master, hdiffs.symm.trans halone.diffs⟩
  · intro h after last hrun
    obtain ⟨⟨found, result⟩, middle, hget, hloaded⟩ := run_bind_eq_ok hrun
    cases found with
    | false =>
        simp only [Bool.false_eq_true, if_false, run_pure, Result.ok.injEq,
          Prod.mk.injEq] at hloaded
        obtain ⟨⟨-, rfl⟩, -⟩ := hloaded
        exact LeftAlone.of_content rfl rfl rfl
    | true =>
        simp only [if_true, run_pure, Result.ok.injEq] at hloaded
        have hnone : ∀ entry ∈ result, (fields entry.2).isWhole = false := by
          by_contra hwhole
          have htrue := loadFirst_of_whole hreads (by simpa using hwhole) { object with id := id }
          rw [hloaded.1] at htrue
          exact Bool.false_ne_true htrue
        rcases h result middle hget with ⟨entry, hentry, hwhole⟩ | ⟨hmaster, hdiffs⟩
        · exact absurd hwhole (by simp [hnone entry hentry])
        rw [loadFirst_of_not_whole hreads hnone, Prod.mk.injEq] at hloaded
        rw [← hloaded.1.2]
        exact LeftAlone.of_content
          ((foldl_assign fields Fields.master_assign result _).trans hmaster)
          ((foldl_assign fields Fields.diffs_assign result _).trans hdiffs)
          (head_foldl_assign hnone _)

end Daemon

namespace Archive

/-- What an archive text assigns. -/
def fields (text : Bytes) : Fields :=
  match readText text with
  | none => .nothing
  | some (id, text) =>
      match readText text with
      | none => .upToId id
      | some (master, text) =>
          match readNumber text with
          | none => .upToMaster id master
          | some (count, text) =>
              match readDiffs count text with
              | none => .upToMaster id master
              | some (diffs, text) =>
                  match readText text with
                  | none => .upToDiffs id master diffs
                  | some (head, _) => .whole { id, master, diffs, head }

/-- All fields of an object that was written are assigned. -/
theorem fields_writeObject (object : Object) : fields (writeObject object) = .whole object := by
  have hhead := readText_writeText object.head []
  rw [List.append_nil] at hhead
  simp only [fields, writeObject, List.append_assoc, readText_writeText, readNumber_writeNumber,
    readDiffs_writeDiffs, hhead]

/-- The signature of a text archive, its version, and what it says of the class of objects. -/
def signature : Bytes := ascii "22 serialization::archive 9 0 0 "

/-- What a text assigns that begins as an archive of an object does. -/
def signedFields (text : Bytes) : Fields :=
  if signature <+: text then fields (text.drop signature.length) else .nothing

/-- The archive that assigns field by field. -/
def fieldwise : Library where
  patch := (DiffMatchPatch.library fun _ _ => none).patch
  save object := signature ++ writeObject object
  load text object := (signedFields text).load object
  load_save object target := by
    rw [signedFields, if_pos (List.prefix_append _ _), List.drop_left, fields_writeObject]
    rfl

end Archive

namespace Daemon

/-- The daemon over the store with the digests of some letters and this archive. -/
def fieldwiseDaemon : Daemon := FFStore.letterStore.daemon FFStore.plainPlatform Archive.fieldwise

/-- The world in which a text is stored under the key `k`. -/
def storedUnder (text : Bytes) : World :=
  ((FFStore.letterStore.kvPut [107] text).run FFStore.letterStore.fresh).state

/-- A text without a number assigns nothing. -/
theorem left_alone_letter : fieldwiseDaemon.FailsCleanly [107] .new (storedUnder [97]) := by
  refine (left_alone_iff fieldwiseDaemon Archive.signedFields [107] .new (storedUnder [97])
    fun _ _ => rfl).2 fun result last hget => ?_
  have hresult : ((ModuleManager.kvGet fieldwiseDaemon.plugins [107] []).run
      (storedUnder [97])).value?.map (fun found => found.2.map Prod.snd) = some [[97]] := by
    decide +kernel
  rw [hget] at hresult
  obtain ⟨⟨key, text⟩, rfl, rfl⟩ := List.map_eq_singleton_iff.1 (Option.some.inj hresult)
  exact .inr ⟨rfl, rfl⟩

/-- An archive that ends behind its master leaves that master in the object. -/
theorem not_left_alone_cut :
    ¬ fieldwiseDaemon.FailsCleanly [107] .new
      (storedUnder (ascii "22 serialization::archive 9 0 0 1 k 1 b ")) := by
  intro h
  have hvalue : ((fieldwiseDaemon.getObjectHead [107] .new).run
      (storedUnder (ascii "22 serialization::archive 9 0 0 1 k 1 b "))).value?.map
        (fun answer => (answer.1, answer.2.master)) = some (false, [98]) := by
    decide +kernel
  obtain ⟨⟨found, object⟩, hrun, hobject⟩ := Option.map_eq_some_iff.1 hvalue
  obtain ⟨last, hlast⟩ := Result.exists_of_value? hrun
  obtain ⟨rfl, hmaster⟩ := Prod.mk.inj hobject
  exact absurd ((h object last hlast).master.symm.trans hmaster) (by decide)

end Daemon

end AnarchNet
