import AnarchNet.Db.Hunk

/-!
# Revisions of an object

The part of `db::Object` and `DBManager` that reads and restores old revisions. An object in
memory is changed in place: `update_object` and `rollback_object` change it first and save it
afterwards, so it keeps the change when saving fails or throws. A call whose patch is not made
leaves it as it is. A run of such calls starts with `Object::create`.

The content of a revision is not stored. It is computed by applying the patches of the diffs in
order, up to the first diff with the id of the revision.
-/

namespace AnarchNet

open FileSystem

namespace Db

/-- `patch_apply` of `patch_fromText`: the new text, or the text that is thrown. -/
abbrev Apply := Bytes → Bytes → Except Bytes Bytes

/-- The ids and patches of the diffs. -/
def Object.log (object : Object) : List (Bytes × Bytes) :=
  object.diffs.map fun diff => (diff.id, diff.content)

/-- `has_diff`. -/
def Object.hasDiff (object : Object) (id : Bytes) : Bool := object.diffs.any fun diff => diff.id = id

/-- `get` with a revision. -/
def Object.getRev (dmp : Apply) (object : Object) (rev : Bytes) : Except Bytes Bytes :=
  Replay.replayTo dmp rev object.log []

/-- `DBManager::get_object_rev`; an object without the diff has no content to give. -/
def getObjectRev (dmp : Apply) (object : Object) (rev : Bytes) : Except Bytes (Option Bytes) :=
  if object.hasDiff rev then
    match object.getRev dmp rev with
    | .ok text => .ok (some text)
    | .error text => .error text
  else .ok none

/-- An object in memory, and the file system that it is saved to. -/
structure Live where
  object : Object
  world : World

/-- A storage program next to an object in memory. -/
def onDisk {α : Type} (program : Storage α) : EStateM Exception Live α := fun live =>
  match program.run live.world with
  | .ok value world => .ok value { live with world := world }
  | .error fault world => .error fault { live with world := world }

/-- A call that changes an object in memory. -/
inductive Change where
  | update (now : Nat) (content : Bytes)
  | rollback (rev : Bytes)

end Db

open Db

namespace Daemon

variable (daemon : Daemon) (dmp : Apply)

/-- `Object::create` with an id, in place. -/
def createLive (now : Nat) (content id : Bytes) : EStateM Exception Live Bool := do
  let _ ← daemon.makePatch [] content
  modify fun live => { live with object := daemon.created live.object now content id }
  let live ← get
  onDisk (daemon.createObject live.object)

/-- `Object::save`, in place. -/
def saveLive : EStateM Exception Live Bool := do
  let live ← get
  onDisk (daemon.save live.object)

/-- `DBManager::update_object`, in place. -/
def updateLive (now : Nat) (content : Bytes) : EStateM Exception Live Bool := do
  let live ← get
  let _ ← daemon.makePatch live.object.head content
  modify fun live => { live with object := daemon.updated live.object now content }
  daemon.saveLive

/-- `DBManager::rollback_object`, in place. -/
def rollbackLive (rev : Bytes) : EStateM Exception Live Bool := do
  let live ← get
  match getObjectRev dmp live.object rev with
  | .error text => throw (.message text)
  | .ok none => return false
  | .ok (some text) => do
      set { live with object := { live.object with head := text, master := rev } }
      daemon.saveLive

/-- A change of the object in memory. -/
def change : Change → EStateM Exception Live Bool
  | .update now content => daemon.updateLive now content
  | .rollback rev => daemon.rollbackLive dmp rev

/-- `Object::create` on a new object, whatever it returns. -/
def start (now : Nat) (content id : Bytes) (world : World) : Live :=
  ((daemon.createLive now content id).run ⟨.new, world⟩).state

/-- A change that returns or throws leaves its state behind. -/
def stepLive (live : Live) (call : Change) : Live := ((daemon.change dmp call).run live).state

/-- A sequence of changes. -/
def runLive (calls : List Change) (live : Live) : Live := calls.foldl (daemon.stepLive dmp) live

end Daemon

/-! ## What the calls do to the object -/

/-- A storage program runs on the file system. -/
theorem Db.run_onDisk {α : Type} (program : Storage α) (live : Live) :
    (onDisk program).run live =
      match program.run live.world with
      | .ok value world => .ok value { live with world := world }
      | .error fault world => .error fault { live with world := world } := rfl

/-- A storage program leaves the object in memory alone. -/
@[simp] theorem Db.object_onDisk {α : Type} (program : Storage α) (live : Live) :
    ((onDisk program).run live).state.object = live.object := by
  rw [run_onDisk]
  cases program.run live.world <;> rfl

/-- What a storage program leaves. -/
theorem Db.state_onDisk {α : Type} (program : Storage α) (live : Live) :
    ((onDisk program).run live).state = ⟨live.object, (program.run live.world).state⟩ := by
  rw [run_onDisk]
  cases program.run live.world <;> rfl

/-- An id is found exactly if it is the id of a diff. -/
theorem Db.Object.hasDiff_iff {object : Object} {id : Bytes} :
    object.hasDiff id = true ↔ id ∈ object.diffs.map Diff.id := by
  simp [Object.hasDiff]

@[simp] theorem Db.Object.map_fst_log (object : Object) :
    object.log.map Prod.fst = object.diffs.map Diff.id := by
  simp [Object.log]

@[simp] theorem Db.Object.map_snd_log (object : Object) :
    object.log.map Prod.snd = object.diffs.map Diff.content := by
  simp [Object.log]

namespace Daemon

variable {daemon : Daemon} {dmp : Apply}

/-- Saving leaves the object in memory alone. -/
theorem state_saveLive (live : Live) : (daemon.saveLive.run live).state =
    ⟨live.object, ((daemon.save live.object).run live.world).state⟩ :=
  state_onDisk (daemon.save live.object) live

/-- Saving returns what the storage program does. -/
theorem run_saveLive {live : Live} {saved : Bool} {world : World}
    (h : (daemon.save live.object).run live.world = .ok saved world) :
    daemon.saveLive.run live = .ok saved { live with world := world } := by
  change (onDisk (daemon.save live.object)).run live = _
  rw [run_onDisk, h]

/-- What `Object::create` leaves once its patch is made. -/
theorem start_of_makes {content : Bytes} (h : daemon.Makes [] content) (now : Nat) (id : Bytes)
    (world : World) : daemon.start now content id world =
      ⟨daemon.created .new now content id,
        ((daemon.createObject (daemon.created .new now content id)).run world).state⟩ := by
  rw [start, createLive, EStateM.run_bind, run_makePatch h]
  exact state_onDisk _ _

/-- The object that `Object::create` leaves in memory. -/
theorem object_start (now : Nat) (content id : Bytes) (world : World) :
    (daemon.start now content id world).object =
      if daemon.Makes [] content then daemon.created .new now content id else .new := by
  by_cases hmakes : daemon.Makes [] content
  · rw [start_of_makes hmakes, if_pos hmakes]
  · rw [start, createLive, EStateM.run_bind, run_makePatch_not hmakes, if_neg hmakes]
    rfl

/-- An update in place, once its patch is made. -/
theorem run_updateLive_makes {live : Live} {content : Bytes}
    (h : daemon.Makes live.object.head content) (now : Nat) :
    (daemon.updateLive now content).run live =
      daemon.saveLive.run { live with object := daemon.updated live.object now content } := by
  rw [updateLive, EStateM.run_bind, EStateM.run_get]
  simp only [EStateM.run_bind, run_makePatch h]
  rfl

/-- An update in place whose patch is not made. -/
theorem run_updateLive_makes_not {live : Live} {content : Bytes}
    (h : ¬ daemon.Makes live.object.head content) (now : Nat) :
    (daemon.updateLive now content).run live = .error .undefined live := by
  rw [updateLive, EStateM.run_bind, EStateM.run_get]
  simp only [EStateM.run_bind, run_makePatch_not h]

/-- The object in memory is updated whether or not it is saved, unless its patch is not made. -/
theorem object_step_update (live : Live) (now : Nat) (content : Bytes) :
    (daemon.stepLive dmp live (.update now content)).object =
      if daemon.Makes live.object.head content then daemon.updated live.object now content
      else live.object := by
  rw [stepLive, change]
  split
  · rename_i hmakes
    rw [run_updateLive_makes hmakes]
    exact object_onDisk _ _
  · rename_i hmakes
    rw [run_updateLive_makes_not hmakes]
    rfl

/-- A rollback to a content that is found puts it into memory and saves it. -/
theorem run_rollbackLive {live : Live} {rev text : Bytes}
    (h : getObjectRev dmp live.object rev = .ok (some text)) :
    (daemon.rollbackLive dmp rev).run live =
      daemon.saveLive.run { live with object := { live.object with head := text, master := rev } } := by
  simp only [rollbackLive, EStateM.run_bind, EStateM.run_get, h]
  rfl

/-- A rollback that gets the content of a revision changes the object whether or not it is
saved; any other rollback leaves it alone. -/
theorem object_step_rollback (live : Live) (rev : Bytes) :
    (daemon.stepLive dmp live (.rollback rev)).object =
      match getObjectRev dmp live.object rev with
      | .ok (some text) => { live.object with head := text, master := rev }
      | _ => live.object := by
  simp only [stepLive, change, rollbackLive, EStateM.run_bind, EStateM.run_get]
  cases getObjectRev dmp live.object rev with
  | error text => rfl
  | ok result =>
      cases result with
      | none => rfl
      | some text => exact object_onDisk _ _

/-- The update in place is the update of the object, which it leaves behind unless the patch is not
made. -/
theorem run_updateLive (object : Object) (world : World) (now : Nat) (content : Bytes) :
    (daemon.updateLive now content).run ⟨object, world⟩ =
      match (daemon.updateObject object now content).run world with
      | .ok (saved, after) world => .ok saved ⟨after, world⟩
      | .error fault world => .error fault
          ⟨if daemon.Makes object.head content then daemon.updated object now content else object,
            world⟩ := by
  by_cases hmakes : daemon.Makes object.head content
  · rw [run_updateLive_makes hmakes, run_updateObject hmakes, EStateM.run_bind, if_pos hmakes]
    change (onDisk (daemon.save (daemon.updated object now content))).run
      ⟨daemon.updated object now content, world⟩ = _
    rw [run_onDisk]
    cases (daemon.save (daemon.updated object now content)).run world <;> rfl
  · rw [run_updateLive_makes_not hmakes, updateObject, EStateM.run_bind, run_makePatch_not hmakes,
      if_neg hmakes]

end Daemon

/-! ## Histories without rollbacks -/

/-- The content of an update and of nothing else. -/
def updatesOf (updates : List (Nat × Bytes)) : List Change :=
  updates.map fun update => .update update.1 update.2

/-- An object whose diffs are the edits through a sequence of contents. -/
structure Daemon.Follows (daemon : Daemon) (contents : List Bytes) (object : Object) : Prop where
  patches : object.diffs.map Diff.content = Replay.edits daemon.library.patch [] contents
  ids : object.diffs.map Diff.id =
    (object.diffs.map Diff.content).map fun patch => toHex (daemon.sha.hash patch)
  master : (object.diffs.map Diff.id).getLast?.getD [] = object.master
  head : Replay.reached daemon.library.patch [] contents = object.head

namespace Daemon.Follows

variable {daemon : Daemon} {dmp : Apply} {contents : List Bytes} {object : Object}

/-- The object that is made follows its one content. -/
theorem start (daemon : Daemon) (now : Nat) (content id : Bytes) (world : World) :
    daemon.Follows [content] (daemon.start now content id world).object := by
  rw [object_start]
  split
  · rename_i hmakes
    obtain ⟨patch, hpatch⟩ := Option.isSome_iff_exists.1 hmakes
    refine ⟨?_, rfl, rfl, ?_⟩
    · simp only [Replay.edits, hpatch, Option.toList_some, List.append_nil]
      simp [Daemon.created, newDiff, Object.new, Library.patchText, hpatch]
    · rw [Replay.reached, hpatch]
      rfl
  · rename_i hmakes
    rw [not_makes_iff] at hmakes
    refine ⟨?_, rfl, rfl, ?_⟩
    · simp only [Replay.edits, hmakes, Option.toList_none, List.append_nil]
      rfl
    · rw [Replay.reached, hmakes]
      rfl

/-- An update adds a content, if its patch is made. -/
theorem step {live : Live} (h : daemon.Follows contents live.object) (now : Nat) (content : Bytes) :
    daemon.Follows (contents ++ [content])
      (daemon.stepLive dmp live (.update now content)).object := by
  have hedits := Replay.edits_snoc daemon.library.patch [] contents content
  have hreached := Replay.reached_snoc daemon.library.patch [] contents content
  rw [h.head] at hedits hreached
  rw [object_step_update]
  split
  · rename_i hmakes
    obtain ⟨patch, hpatch⟩ := Option.isSome_iff_exists.1 hmakes
    rw [hpatch, Option.toList_some, ← h.patches] at hedits
    rw [hpatch, Option.isSome_some, if_pos rfl] at hreached
    refine ⟨?_, ?_, ?_, hreached⟩
    · rw [hedits]
      simp [Daemon.updated, newDiff, Library.patchText, hpatch]
    · simp only [Daemon.updated, List.map_append, List.map_cons, List.map_nil, h.ids]
      rfl
    · simp [Daemon.updated]
  · rename_i hmakes
    rw [not_makes_iff] at hmakes
    rw [hmakes, Option.toList_none, List.append_nil] at hedits
    rw [hmakes, Option.isSome_none, if_neg Bool.false_ne_true] at hreached
    exact ⟨h.patches.trans hedits.symm, h.ids, h.master, hreached⟩

/-- A run of updates adds their contents. -/
theorem run {live : Live} (h : daemon.Follows contents live.object) (updates : List (Nat × Bytes)) :
    daemon.Follows (contents ++ updates.map Prod.snd)
      (daemon.runLive dmp (updatesOf updates) live).object := by
  induction updates generalizing contents live with
  | nil => simpa [updatesOf, runLive] using h
  | cons update updates ih =>
      have hstep := @step daemon dmp contents live h update.1 update.2
      simpa [updatesOf, runLive] using ih hstep

/-- There is a diff per content. -/
theorem length_diffs (h : daemon.Follows contents object)
    (hlaw : Replay.Lawful daemon.library.patch dmp) :
    object.diffs.length = contents.length := by
  have hlength := congrArg List.length h.patches
  rwa [List.length_map, Replay.length_edits hlaw] at hlength

/-- With distinct ids, the revision of each diff has the content that the diff was made for. -/
theorem getRev (h : daemon.Follows contents object) (hlaw : Replay.Lawful daemon.library.patch dmp)
    (hids : (object.diffs.map Diff.id).Nodup) {index : Nat} (hindex : index < object.diffs.length)
    {content : Bytes} (hcontent : contents[index]? = some content) :
    object.getRev dmp object.diffs[index].id = .ok content := by
  have hlog : index < object.log.length := by simpa [Object.log] using hindex
  have hname : object.diffs[index].id = object.log[index].1 := by simp [Object.log]
  rw [Object.getRev, hname, Replay.replayTo_of_nodup (by simpa using hids) hlog,
    Object.map_snd_log, h.patches, ← Replay.edits_take hlaw, Replay.replay_edits hlaw,
    List.getLast?_take]
  simp [hcontent]

end Daemon.Follows

/-- An object without rollbacks follows its contents. -/
theorem Daemon.follows_run (daemon : Daemon) (dmp : Apply) (now : Nat) (content id : Bytes)
    (world : World) (updates : List (Nat × Bytes)) :
    daemon.Follows (content :: updates.map Prod.snd)
      (daemon.runLive dmp (updatesOf updates) (daemon.start now content id world)).object :=
  (Daemon.Follows.start daemon now content id world).run updates

/-- The patches of an object without rollbacks: from the empty text to its first content, and from
each content to the next that a patch is made to. -/
def patchesOf (daemon : Daemon) (content : Bytes) (updates : List (Nat × Bytes)) : List Bytes :=
  Replay.edits daemon.library.patch [] (content :: updates.map Prod.snd)

/-- The ids of an object without rollbacks are the hashes of its patches. -/
theorem Daemon.ids_run (daemon : Daemon) (dmp : Apply) (now : Nat) (content id : Bytes)
    (world : World) (updates : List (Nat × Bytes)) :
    (daemon.runLive dmp (updatesOf updates)
        (daemon.start now content id world)).object.diffs.map Diff.id =
      (patchesOf daemon content updates).map fun patch => toHex (daemon.sha.hash patch) := by
  have hfollows := daemon.follows_run dmp now content id world updates
  rw [hfollows.ids, hfollows.patches, patchesOf]

/-- Every revision of an object without rollbacks whose ids are distinct replays to the content it
was made for, and the master revision replays to the head. -/
theorem revisions_replay (daemon : Daemon) (dmp : Apply)
    (hlaw : Replay.Lawful daemon.library.patch dmp) (now : Nat) (content id : Bytes)
    (world : World) (updates : List (Nat × Bytes)) (object : Object)
    (hobject : object =
      (daemon.runLive dmp (updatesOf updates) (daemon.start now content id world)).object)
    (hids : (object.diffs.map Diff.id).Nodup) :
    object.diffs.length = updates.length + 1 ∧
      (∀ index (hindex : index < object.diffs.length),
        getObjectRev dmp object object.diffs[index].id =
          .ok ((content :: updates.map Prod.snd)[index]?)) ∧
      object.getRev dmp object.master = .ok object.head := by
  have hfollows : daemon.Follows (content :: updates.map Prod.snd) object :=
    hobject ▸ daemon.follows_run dmp now content id world updates
  have hlength : object.diffs.length = updates.length + 1 := by
    simpa using hfollows.length_diffs hlaw
  refine ⟨hlength, fun index hindex => ?_, ?_⟩
  · have hmem : object.hasDiff object.diffs[index].id = true :=
      Object.hasDiff_iff.2 (List.mem_map_of_mem (List.getElem_mem hindex))
    have hcontent := List.getElem?_eq_getElem (hfollows.length_diffs hlaw ▸ hindex)
    rw [getObjectRev, if_pos hmem, hfollows.getRev hlaw hids hindex hcontent, hcontent]
  · have hlast : updates.length < object.diffs.length := by omega
    have hmaster : object.master = object.diffs[updates.length].id := by
      have := hfollows.master
      rw [List.getLast?_eq_getElem?, List.length_map, hlength, Nat.add_sub_cancel,
        List.getElem?_map, List.getElem?_eq_getElem hlast] at this
      simpa using this.symm
    have hhead : (content :: updates.map Prod.snd).getLast? = some object.head := by
      rw [← hfollows.head, Replay.reached_of_lawful hlaw, List.getLast?_cons, Option.getD_some]
    rw [List.getLast?_eq_getElem?] at hhead
    rw [hmaster, hfollows.getRev hlaw hids hlast (by simpa using hhead)]

/-- The three revisions of an object with the contents `a`, `b` and `a`. -/
theorem revisions_replay_letters :
    ∃ object, object = (Hunk.lawfulDaemon.runLive Hunk.dmp (updatesOf [(1, [98]), (2, [97])])
        (Hunk.lawfulDaemon.start 0 [97] [107] Hunk.store.fresh)).object ∧
      (object.diffs.map Diff.id).Nodup ∧ object.diffs.length = 3 ∧
      object.getRev Hunk.dmp object.master = .ok object.head := by
  have hids : ((Hunk.lawfulDaemon.runLive Hunk.dmp (updatesOf [(1, [98]), (2, [97])])
      (Hunk.lawfulDaemon.start 0 [97] [107] Hunk.store.fresh)).object.diffs.map Diff.id).Nodup := by
    rw [Daemon.ids_run]
    decide +kernel
  obtain ⟨hlength, -, hmaster⟩ := revisions_replay Hunk.lawfulDaemon Hunk.dmp Hunk.lawful 0 [97]
    [107] Hunk.store.fresh [(1, [98]), (2, [97])] _ rfl hids
  exact ⟨_, rfl, hids, hlength, hmaster⟩

/-- The ids of the diffs of an object without rollbacks are distinct exactly if its patches are. -/
theorem revision_ids_nodup_iff (daemon : Daemon) (dmp : Apply) (now : Nat) (content id : Bytes)
    (world : World) (updates : List (Nat × Bytes))
    (hfree : CollisionFree daemon.sha (patchesOf daemon content updates)) :
    ((daemon.runLive dmp (updatesOf updates)
        (daemon.start now content id world)).object.diffs.map Diff.id).Nodup ↔
      (patchesOf daemon content updates).Nodup := by
  rw [Daemon.ids_run]
  refine ⟨List.Nodup.of_map _, fun hnodup => List.Nodup.map_on ?_ hnodup⟩
  intro left hleft right hright heq
  exact hfree left hleft right hright (toHex_injective heq)

/-- The contents `a`, `b` and `a` have distinct ids. -/
theorem revision_ids_nodup_letters :
    ((Hunk.daemon.runLive Hunk.letterApply (updatesOf [(1, [98]), (2, [97])])
      (Hunk.daemon.start 0 [97] [107] Hunk.store.fresh)).object.diffs.map Diff.id).Nodup :=
  (revision_ids_nodup_iff Hunk.daemon Hunk.letterApply 0 [97] [107] Hunk.store.fresh
    [(1, [98]), (2, [97])] (by decide +kernel)).2 (by decide +kernel)

/-- Two updates that change nothing have the same id. -/
theorem revision_ids_repeat :
    CollisionFree Hunk.daemon.sha (patchesOf Hunk.daemon [97] [(1, [97]), (2, [97])]) ∧
      (∀ text, Hunk.daemon.library.patch text text = some []) ∧
      ¬ ((Hunk.daemon.runLive Hunk.letterApply (updatesOf [(1, [97]), (2, [97])])
        (Hunk.daemon.start 0 [97] [107] Hunk.store.fresh)).object.diffs.map Diff.id).Nodup := by
  refine ⟨by decide +kernel, fun text => ?_, ?_⟩
  · rw [Hunk.daemon, Hunk.letterLibrary_eq]
    exact DiffMatchPatch.patchBetween_self none text
  · rw [Daemon.ids_run]
    decide +kernel

end AnarchNet
