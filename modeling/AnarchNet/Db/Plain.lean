import AnarchNet.Db.Revisions

/-!
# Revisions as the patches keep them

The patches of an object are made with `patch_make` and written with `patch_toText`, and a revision
is read with `patch_fromText` and `patch_apply`. The first patch of an object is one insertion into
the empty text. It loses the characters that are not ASCII, whatever is done with the object later.
-/

namespace AnarchNet

open FileSystem EditScript Native EStateM

namespace DiffMatchPatch

/-- The patch is written with `patch_toText` for what a run of `patch_make` returned. -/
def Writes (library : Db.Library) (old new : Bytes) : Prop :=
  ∃ steps clock patches last patch,
    (patchMake (steps + 1) old new).run clock = .ok patches last ∧
      patchToText patches = .ok patch ∧ library.patch old new = some patch

end DiffMatchPatch

/-! ## The first revision -/

namespace Daemon

variable {daemon : Daemon} {dmp : Db.Apply}

/-- A call adds diffs at most. -/
theorem diffs_stepLive (live : Db.Live) (call : Db.Change) :
    ∃ more, (daemon.stepLive dmp live call).object.diffs = live.object.diffs ++ more := by
  cases call with
  | update now content =>
      rw [object_step_update]
      split
      · exact ⟨_, rfl⟩
      · exact ⟨[], (List.append_nil _).symm⟩
  | rollback rev =>
      refine ⟨[], ?_⟩
      rw [object_step_rollback, List.append_nil]
      split <;> rfl

/-- So does a run. -/
theorem diffs_runLive (calls : List Db.Change) (live : Db.Live) :
    ∃ more, (daemon.runLive dmp calls live).object.diffs = live.object.diffs ++ more := by
  induction calls generalizing live with
  | nil => exact ⟨[], (List.append_nil _).symm⟩
  | cons call calls ih =>
      obtain ⟨first, hfirst⟩ := @diffs_stepLive daemon dmp live call
      obtain ⟨more, hmore⟩ := ih (daemon.stepLive dmp live call)
      refine ⟨first ++ more, ?_⟩
      rw [← List.append_assoc, ← hfirst]
      exact hmore

end Daemon

open DiffMatchPatch

/-- **The first revision** of an object, after any updates and rollbacks, is the content it was
created with, without the characters that are not ASCII. -/
theorem first_revision_plain (daemon : Daemon) (inexact : Inexact) (what : Stop → Bytes) (now : Nat)
    (content id : Bytes) (world : World) (calls : List Db.Change) (object : Db.Object)
    (hwrites : Writes daemon.library [] content) (hsize : 12 * content.length + 54 < 2 ^ 31)
    (hobject : object = (daemon.runLive (inexact.dmp what) calls
      (daemon.start now content id world)).object) :
    (∃ first, object.diffs.head? = some first ∧
      Db.getObjectRev (inexact.dmp what) object first.id =
        .ok (some (content.filter (· < 128)))) ∧
    ((∃ first, object.diffs.head? = some first ∧
      Db.getObjectRev (inexact.dmp what) object first.id = .ok (some content)) ↔
      ∀ char ∈ content, char < 128) := by
  obtain ⟨steps, clock, patches, last, patch, hrun, htext, hpatch⟩ := hwrites
  rw [run_patchMake_empty, EStateM.Result.ok.injEq] at hrun
  rw [← hrun.1] at htext
  have hmakes : daemon.Makes [] content := by rw [Daemon.Makes, hpatch, Option.isSome_some]
  obtain ⟨first, hfirst⟩ : ∃ first,
      daemon.newDiff now (daemon.library.patchText [] content) [] = first := ⟨_, rfl⟩
  have hcontent : first.content = patch := by
    rw [← hfirst, Daemon.newDiff, Db.Library.patchText, hpatch, Option.getD_some]
  obtain ⟨more, hmore⟩ := @Daemon.diffs_runLive daemon (inexact.dmp what) calls
    (daemon.start now content id world)
  have hdiffs : object.diffs = first :: more := by
    rw [hobject, hmore, Daemon.object_start, if_pos hmakes, Daemon.created, hfirst]
    rfl
  have hhead : object.diffs.head? = some first := by rw [hdiffs, List.head?_cons]
  have hrev : Db.getObjectRev (inexact.dmp what) object first.id =
      .ok (some (content.filter (· < 128))) := by
    have hmem : object.hasDiff first.id = true :=
      Db.Object.hasDiff_iff.2 (by rw [hdiffs]; exact List.mem_cons_self)
    have hlog : object.log =
        (first.id, first.content) :: more.map fun diff => (diff.id, diff.content) := by
      rw [Db.Object.log, hdiffs, List.map_cons]
    have hget : object.getRev (inexact.dmp what) first.id = .ok (content.filter (· < 128)) := by
      rw [Db.Object.getRev, hlog, Replay.replayTo, hcontent,
        dmp_firstPatches inexact what htext hsize]
      simp only [if_true]
    rw [Db.getObjectRev, if_pos hmem, hget]
  refine ⟨⟨first, hhead, hrev⟩, ?_⟩
  constructor
  · intro hsame
    obtain ⟨other, hother, hequal⟩ := hsame
    obtain rfl : first = other := Option.some.inj (hhead.symm.trans hother)
    rw [hrev, Except.ok.injEq, Option.some.injEq, List.filter_eq_self] at hequal
    exact fun char hchar => of_decide_eq_true (hequal char hchar)
  · intro hascii
    have hplain : content.filter (· < 128) = content :=
      List.filter_eq_self.2 fun char hchar => decide_eq_true (hascii char hchar)
    exact ⟨first, hhead, by rw [hrev, hplain]⟩

/-- The daemon whose patches are made by the library. -/
def patchDaemon : Daemon :=
  { Hunk.daemon with library := DiffMatchPatch.library fun _ _ => none }

/-- The text `aä` is updated to `b` and rolled back; its first revision is `a`. -/
theorem first_revision_plain_letter :
    ∃ object, object = (patchDaemon.runLive
        (DiffMatchPatch.Inexact.nothing.dmp fun _ => []) [.update 1 [98], .rollback [107]]
        (patchDaemon.start 0 [97, 195, 164] [107] Hunk.store.fresh)).object ∧
      ∃ first, object.diffs.head? = some first ∧
        Db.getObjectRev (DiffMatchPatch.Inexact.nothing.dmp fun _ => []) object first.id =
          .ok (some [97]) := by
  have hpatch : patchDaemon.library.patch [] [97, 195, 164] =
      some (escapedPatches (firstPatches [97, 195, 164])) := patchBetween_empty none (by decide)
  have hwrites : Writes patchDaemon.library [] [97, 195, 164] :=
    ⟨0, none, _, none, _, run_patchMake_empty 0 [97, 195, 164] none,
      patchToText_eq_ok_iff.2 ⟨by unfold FitsInt; decide, rfl⟩, hpatch⟩
  have hplain := (first_revision_plain patchDaemon .nothing (fun _ => []) 0 [97, 195, 164]
    [107] Hunk.store.fresh [.update 1 [98], .rollback [107]] _ hwrites (by decide) rfl).1
  exact ⟨_, rfl, hplain⟩

end AnarchNet
