import AnarchNet.Db.Rollback

/-!
# Failed saves

Saving an object removes its old text and then puts the new one, after the object in memory was
changed. Each of the two key-value operations may return false without an effect. This module says
what is left of the object when the whole call returns false.
-/

namespace AnarchNet

open FileSystem Db

/-- The values under a key of a flat-file store: the files that the links of the key lead to. -/
def FFStore.valuesOf (store : FFStore) (world : World) (key : Bytes) : List Bytes :=
  (world.tree.names (store.keyDir key)).filterMap fun name =>
    (world.tree.resolve (store.keyDir key ++ [name])).bind world.tree.content

namespace Daemon

variable (daemon : Daemon) (dmp : Apply)

/-- The object that a change saves; an update whose patch is not made and a rollback that does not
get the content of its revision save nothing. -/
def target (object : Object) : Change → Option Object
  | .update now content =>
      if daemon.Makes object.head content then some (daemon.updated object now content) else none
  | .rollback rev =>
      match getObjectRev dmp object rev with
      | .ok (some text) => some { object with head := text, master := rev }
      | _ => none

/-- The key-value operations of a save, with the values they return: each has its effect on the
values under the key, or returns false and has none. -/
def Obeys (contents : World → Bytes → List Bytes) (key value : Bytes) (world : World)
    (removed stored : Bool) : Prop :=
  ∃ middle, (ModuleManager.kvRemove daemon.plugins key).run world = .ok removed middle ∧
    contents middle key = (if removed then [] else contents world key) ∧
    (removed = true → ∃ after,
      (ModuleManager.kvPut daemon.plugins key value).run middle = .ok stored after ∧
      contents after key = if stored then [value] else [])

/-- A change that returns false has lost nothing: the text of the object is still stored, and the
object in memory is as it was. -/
def LosesNothing (contents : World → Bytes → List Bytes) (live : Live) (call : Change) : Prop :=
  ∀ after, (daemon.change dmp call).run live = .ok false after →
    daemon.library.save live.object ∈ contents after.world live.object.id ∧
      after.object = live.object

variable {daemon dmp} {contents : World → Bytes → List Bytes}

/-- How a save ends. -/
theorem run_save_of_obeys {object : Object} {world : World} {removed stored : Bool}
    (h : daemon.Obeys contents object.id (daemon.library.save object) world removed stored) :
    ∃ after, (daemon.save object).run world = .ok (removed && stored) after ∧
      (removed = false → contents after object.id = contents world object.id) ∧
      (removed = true → stored = false → contents after object.id = []) := by
  obtain ⟨middle, hremove, hmiddle, hput⟩ := h
  have hdelete : (daemon.deleteObject object.id).run world = .ok removed middle := hremove
  cases removed with
  | false =>
      refine ⟨middle, ?_, fun _ => by simpa using hmiddle, by simp⟩
      simp [save, hdelete]
  | true =>
      obtain ⟨after, hrun, hafter⟩ := hput rfl
      have hcreate : (daemon.createObject object).run middle = .ok stored after := hrun
      refine ⟨after, ?_, by simp, fun _ hstored => by simpa [hstored] using hafter⟩
      simp [save, hdelete, hcreate]

/-- What an update saves. -/
theorem target_update_eq_some {object next : Object} {now : Nat} {content : Bytes}
    (h : daemon.target dmp object (.update now content) = some next) :
    daemon.Makes object.head content ∧ next = daemon.updated object now content := by
  rw [target, Option.ite_none_right_eq_some, Option.some.injEq] at h
  exact ⟨h.1, h.2.symm⟩

/-- What a rollback saves. -/
theorem target_rollback_eq_some {object next : Object} {rev : Bytes}
    (h : daemon.target dmp object (.rollback rev) = some next) :
    ∃ text, getObjectRev dmp object rev = .ok (some text) ∧
      next = { object with head := text, master := rev } := by
  simp only [target] at h
  split at h
  · rename_i text htext
    rw [Option.some.injEq] at h
    exact ⟨text, htext, h.symm⟩
  · simp at h

/-- A change with an object to save puts it into memory and saves it. -/
theorem run_change_of_target {live : Live} {call : Change} {next : Object}
    (h : daemon.target dmp live.object call = some next) :
    (daemon.change dmp call).run live = daemon.saveLive.run ⟨next, live.world⟩ := by
  cases call with
  | update now content =>
      obtain ⟨hmakes, rfl⟩ := target_update_eq_some h
      exact run_updateLive_makes hmakes now
  | rollback rev =>
      obtain ⟨text, htext, rfl⟩ := target_rollback_eq_some h
      exact run_rollbackLive htext

/-- A change with nothing to save leaves everything alone. -/
theorem state_of_no_target {live after : Live} {call : Change} {flag : Bool}
    (h : daemon.target dmp live.object call = none)
    (hrun : (daemon.change dmp call).run live = .ok flag after) : after = live := by
  cases call with
  | update now content =>
      rw [target, ite_eq_right_iff] at h
      have hmakes : ¬ daemon.Makes live.object.head content := fun hmakes => by cases h hmakes
      rw [change, run_updateLive_makes_not hmakes] at hrun
      cases hrun
  | rollback rev =>
      simp only [change, rollbackLive, EStateM.run_bind, EStateM.run_get] at hrun
      simp only [target] at h
      cases hrev : getObjectRev dmp live.object rev with
      | error text => simp [hrev] at hrun
      | ok result =>
          cases result with
          | some text => simp [hrev] at h
          | none =>
              rw [hrev] at hrun
              simp only [EStateM.run_pure, EStateM.Result.ok.injEq] at hrun
              exact hrun.2.symm

/-- The saved object has the id of the old one. -/
theorem id_of_target {object next : Object} {call : Change}
    (h : daemon.target dmp object call = some next) : next.id = object.id := by
  cases call with
  | update now content =>
      obtain ⟨-, rfl⟩ := target_update_eq_some h
      rfl
  | rollback rev =>
      obtain ⟨text, -, rfl⟩ := target_rollback_eq_some h
      rfl

/-- How a change with an object to save ends. -/
theorem run_change_of_obeys {live : Live} {call : Change} {next : Object} {removed stored : Bool}
    (htarget : daemon.target dmp live.object call = some next)
    (h : daemon.Obeys contents live.object.id (daemon.library.save next) live.world removed stored) :
    ∃ world, (daemon.change dmp call).run live = .ok (removed && stored) ⟨next, world⟩ ∧
      (removed = false → contents world live.object.id = contents live.world live.object.id) ∧
      (removed = true → stored = false → contents world live.object.id = []) := by
  have hid := id_of_target htarget
  rw [← hid] at h ⊢
  obtain ⟨world, hsave, hkept, hlost⟩ := run_save_of_obeys h
  refine ⟨world, ?_, hkept, hlost⟩
  rw [run_change_of_target htarget]
  change (onDisk (daemon.save next)).run ⟨next, live.world⟩ = _
  rw [run_onDisk, hsave]

end Daemon

/-- A change that fails loses nothing exactly if it has nothing to save, or both operations
succeed (so that it does not fail), or the removal fails and the change would change nothing. -/
theorem failed_change_loses_nothing_iff (daemon : Daemon) (dmp : Apply)
    (contents : World → Bytes → List Bytes) (live : Live) (call : Change) (removed stored : Bool)
    (hheld : daemon.library.save live.object ∈ contents live.world live.object.id)
    (hobeys : ∀ next, daemon.target dmp live.object call = some next →
      daemon.Obeys contents live.object.id (daemon.library.save next) live.world removed stored) :
    daemon.LosesNothing dmp contents live call ↔
      ∀ next, daemon.target dmp live.object call = some next →
        (removed = true ∧ stored = true) ∨ (removed = false ∧ next = live.object) := by
  cases htarget : daemon.target dmp live.object call with
  | none =>
      refine ⟨by simp, fun _ after hrun => ?_⟩
      rw [Daemon.state_of_no_target htarget hrun]
      exact ⟨hheld, rfl⟩
  | some next =>
      obtain ⟨world, hrun, hkept, hlost⟩ :=
        Daemon.run_change_of_obeys htarget (hobeys next htarget)
      simp only [Option.some.injEq, forall_eq']
      constructor
      · intro h
        cases removed with
        | false => exact Or.inr ⟨rfl, (h _ hrun).2⟩
        | true =>
            cases stored with
            | true => exact Or.inl ⟨rfl, rfl⟩
            | false =>
                -- the old text was removed and the new one was not put
                have := (h _ hrun).1
                simp [hlost rfl rfl] at this
      · rintro (⟨rfl, rfl⟩ | ⟨rfl, rfl⟩) after hfalse
        · rw [hrun] at hfalse
          simp at hfalse
        · rw [hrun, EStateM.Result.ok.injEq] at hfalse
          rw [← hfalse.2, hkept rfl]
          exact ⟨hheld, rfl⟩

/-- The daemon over a store whose removal always fails. -/
def Hunk.stuckDaemon : Daemon :=
  { Hunk.daemon with plugins := [{ Hunk.store.plugin FFStore.plainPlatform with
      kvRemove := fun _ => return false }] }

/-- A rollback of the object `k` to its master, which fails as nothing can be removed. -/
theorem failed_change_loses_nothing_letter :
    (∃ after, (Hunk.stuckDaemon.rollbackLive Hunk.letterApply letterRev).run letterLive =
        .ok false after) ∧
      Hunk.stuckDaemon.LosesNothing Hunk.letterApply Hunk.store.valuesOf letterLive
        (.rollback letterRev) := by
  have hrev : getObjectRev Hunk.letterApply letterLive.object letterRev = .ok (some [97]) := by
    rw [letterLive_object]
    decide +kernel
  have hback : ∀ next, Hunk.stuckDaemon.target Hunk.letterApply letterLive.object
      (.rollback letterRev) = some next → next = letterLive.object := by
    intro next hnext
    obtain ⟨text, htext, rfl⟩ := Daemon.target_rollback_eq_some hnext
    obtain rfl : [97] = text := Option.some.inj (Except.ok.inj (hrev.symm.trans htext))
    rw [letterLive_object]
    rfl
  have hobeys : ∀ value, Hunk.stuckDaemon.Obeys Hunk.store.valuesOf letterLive.object.id value
      letterLive.world false false := fun value =>
    ⟨letterLive.world, rfl, rfl, fun hremoved => absurd hremoved Bool.false_ne_true⟩
  have htarget : Hunk.stuckDaemon.target Hunk.letterApply letterLive.object
      (.rollback letterRev) =
      some { letterLive.object with head := [97], master := letterRev } := by
    simp only [Daemon.target, hrev]
  obtain ⟨world, hrun, -, -⟩ := Daemon.run_change_of_obeys htarget (hobeys _)
  refine ⟨⟨_, hrun⟩, (failed_change_loses_nothing_iff Hunk.stuckDaemon Hunk.letterApply
    Hunk.store.valuesOf letterLive (.rollback letterRev) false false ?_ fun next _ =>
      hobeys _).2 fun next hnext => .inr ⟨rfl, hback next hnext⟩⟩
  rw [letterLive_object]
  decide +kernel

/-- The daemon over a store whose put always fails. -/
def Hunk.fullDaemon : Daemon :=
  { Hunk.daemon with plugins := [{ Hunk.store.plugin FFStore.plainPlatform with
      kvPut := fun _ _ => return false }] }

/-- An update of the object `k` whose put fails leaves nothing of it in the store, and another
object in memory. -/
theorem failed_update_loses_object :
    Hunk.daemon.library.save letterLive.object ∈
        Hunk.store.valuesOf letterLive.world letterLive.object.id ∧
      (∃ after, (Hunk.fullDaemon.updateLive 1 [98]).run letterLive = .ok false after ∧
        Hunk.store.valuesOf after.world letterLive.object.id = [] ∧
        after.object.head = [98]) ∧
      ¬ Hunk.fullDaemon.LosesNothing Hunk.letterApply Hunk.store.valuesOf letterLive
        (.update 1 [98]) := by
  obtain ⟨last, hrun⟩ := EStateM.Result.exists_of_isTrue
    (show (((ModuleManager.kvRemove Hunk.daemon.plugins [107]).both (.check fun world =>
      Hunk.store.valuesOf world [107] = [])).run letterLive.world).isTrue = true by decide +kernel)
  obtain ⟨middle, hremove, hempty⟩ := EStateM.run_both_eq_true hrun
  obtain ⟨hempty, rfl⟩ := EStateM.run_check_eq_true hempty
  have hid : letterLive.object.id = [107] := by rw [letterLive_object]; rfl
  have hobeys : Hunk.fullDaemon.Obeys Hunk.store.valuesOf letterLive.object.id
      (Hunk.fullDaemon.library.save (Hunk.fullDaemon.updated letterLive.object 1 [98]))
      letterLive.world true false := by
    rw [hid]
    exact ⟨last, hremove, by simpa using hempty, fun _ => ⟨last, rfl, by simpa using hempty⟩⟩
  have hmakes : Hunk.fullDaemon.Makes letterLive.object.head [98] := by
    rw [letterLive_object]
    rfl
  have htarget : Hunk.fullDaemon.target Hunk.letterApply letterLive.object (.update 1 [98]) =
      some (Hunk.fullDaemon.updated letterLive.object 1 [98]) := by
    rw [Daemon.target, if_pos hmakes]
  obtain ⟨world, hfails, -, hlost⟩ := Daemon.run_change_of_obeys htarget hobeys
  refine ⟨?_, ⟨_, hfails, hlost rfl rfl, by simp only [Daemon.updated]⟩, fun hkeeps => ?_⟩
  · rw [hid, letterLive_object]
    decide +kernel
  · have hheld := (hkeeps _ hfails).1
    simp [hlost rfl rfl] at hheld

end AnarchNet
