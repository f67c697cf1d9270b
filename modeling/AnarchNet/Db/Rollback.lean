import AnarchNet.Db.Revisions

/-!
# Rollbacks

`rollback_object` moves the master back to an old diff and keeps the later diffs; the next update
appends its diff behind them. The links from each diff to its predecessor stay a rooted history
through every run of updates and rollbacks. The replay, which goes through all diffs in order,
agrees with this history only as long as nothing was rolled back.
-/

namespace AnarchNet

open FileSystem Db

namespace Db.Object

/-- The index of the first diff with an id. -/
def indexOf (object : Object) (id : Bytes) : Option Nat :=
  object.diffs.findIdx? fun diff => diff.id = id

/-- The indices met by following the links to the predecessors, from an id until one is not
found. -/
inductive Trail (object : Object) : Bytes → List Nat → Prop
  | stop {id : Bytes} : object.indexOf id = none → Trail object id []
  | step {id : Bytes} {index : Nat} {diff : Diff} {rest : List Nat} : object.indexOf id = some index →
      object.diffs[index]? = some diff → Trail object diff.prev rest → Trail object id (index :: rest)

/-- The master is a diff, the first diff has no predecessor, every later one has a predecessor with
a smaller index, and the links from the master go down to the first diff. -/
def RootedHistory (object : Object) : Prop :=
  object.master ∈ object.diffs.map Diff.id ∧
    (∃ diff, object.diffs[0]? = some diff ∧ diff.prev = []) ∧
    (∀ index diff, 0 < index → object.diffs[index]? = some diff →
      ∃ smaller other, smaller < index ∧ object.diffs[smaller]? = some other ∧
        other.id = diff.prev) ∧
    ∃ trail, object.Trail object.master trail ∧ trail.Pairwise (· > ·) ∧ trail.getLast? = some 0

/-- What every change keeps true: the links of the diffs lead back to the first one. -/
structure Rooted (object : Object) : Prop where
  master : object.master ∈ object.diffs.map Diff.id
  first : ∃ diff, object.diffs[0]? = some diff ∧ diff.prev = []
  linked : ∀ index diff, object.diffs[index + 1]? = some diff →
    ∃ smaller other, smaller ≤ index ∧ object.diffs[smaller]? = some other ∧ other.id = diff.prev
  named : ∀ diff ∈ object.diffs, diff.id ≠ []

/-- An id that some diff up to an index has is first found up to this index. -/
theorem indexOf_le {object : Object} {index : Nat} {diff : Diff}
    (h : object.diffs[index]? = some diff) :
    ∃ first other, first ≤ index ∧ object.indexOf diff.id = some first ∧
      object.diffs[first]? = some other := by
  obtain ⟨hindex, rfl⟩ := List.getElem?_eq_some_iff.1 h
  cases hfirst : object.indexOf object.diffs[index].id with
  | none =>
      have := List.findIdx?_eq_none_iff.1 hfirst object.diffs[index] (List.getElem_mem hindex)
      simp at this
  | some first =>
      obtain ⟨hlt, -, hbefore⟩ := List.findIdx?_eq_some_iff_getElem.1 hfirst
      refine ⟨first, object.diffs[first], ?_, rfl, List.getElem?_eq_getElem hlt⟩
      by_contra hgt
      have := hbefore index (by omega)
      simp at this

namespace Rooted

variable {object : Object}

/-- The links from a diff go down to the first one. -/
theorem trail_of_index (h : object.Rooted) (index : Nat) {id : Bytes}
    (hindex : object.indexOf id = some index) {diff : Diff}
    (hdiff : object.diffs[index]? = some diff) :
    ∃ trail, object.Trail id trail ∧ trail.Pairwise (· > ·) ∧ trail.head? = some index ∧
      trail.getLast? = some 0 := by
  induction index using Nat.strongRecOn generalizing id diff with
  | ind index ih =>
      cases index with
      | zero =>
          obtain ⟨first, hfirst, hprev⟩ := h.first
          rw [hfirst, Option.some.injEq] at hdiff
          subst hdiff
          refine ⟨[0], .step hindex hfirst (.stop ?_), by simp, rfl, rfl⟩
          rw [hprev, indexOf, List.findIdx?_eq_none_iff]
          intro other hother
          simpa using h.named other hother
      | succ index =>
          obtain ⟨smaller, other, hsmaller, hother, hprev⟩ := h.linked index diff hdiff
          obtain ⟨first, found, hfirst, hfound, hnode⟩ := indexOf_le hother
          rw [hprev] at hfound
          obtain ⟨trail, htrail, hsorted, hhead, hlast⟩ :=
            ih first (by omega) hfound hnode
          refine ⟨(index + 1) :: trail, .step hindex hdiff htrail, ?_, rfl, ?_⟩
          · -- the trail is sorted, so its head bounds all of it
            obtain ⟨rest, rfl⟩ : ∃ rest, trail = first :: rest := by
              cases trail with
              | nil => simp at hhead
              | cons top rest => exact ⟨rest, by simpa using hhead⟩
            rw [List.pairwise_cons] at hsorted ⊢
            refine ⟨fun entry hentry => ?_, List.pairwise_cons.2 hsorted⟩
            rcases List.mem_cons.1 hentry with rfl | hentry
            · omega
            · have := hsorted.1 entry hentry
              omega
          · rw [List.getLast?_cons, hlast]
            rfl

/-- A new object is rooted. -/
theorem created (daemon : Daemon) (now : Nat) (content id : Bytes) :
    (daemon.created .new now content id).Rooted := by
  refine ⟨by simp [Daemon.created, Object.new], ⟨_, rfl, rfl⟩, fun index diff h => ?_,
    fun diff h => ?_⟩
  · simp [Daemon.created, Object.new] at h
  · simp only [Daemon.created, Object.new, List.nil_append, List.mem_singleton] at h
    rw [h]
    exact (daemon.sha.hexId _).validName.1.1 ∘ Or.inl

/-- An update links the new diff to the master. -/
theorem updated (h : object.Rooted) (daemon : Daemon) (now : Nat) (content : Bytes) :
    (daemon.updated object now content).Rooted := by
  obtain ⟨first, hfirst, hprev⟩ := h.first
  have hpos := (List.getElem?_eq_some_iff.1 hfirst).1
  refine ⟨by simp [Daemon.updated], ⟨first, ?_, hprev⟩, fun index diff hdiff => ?_,
    fun diff hdiff => ?_⟩
  · rw [Daemon.updated, List.getElem?_append_left hpos, hfirst]
  · simp only [Daemon.updated] at hdiff ⊢
    by_cases hold : index + 1 < object.diffs.length
    · rw [List.getElem?_append_left hold] at hdiff
      obtain ⟨smaller, other, hsmaller, hother, hlink⟩ := h.linked index diff hdiff
      refine ⟨smaller, other, hsmaller, ?_, hlink⟩
      rw [List.getElem?_append_left (List.getElem?_eq_some_iff.1 hother).1, hother]
    · rw [List.getElem?_append_right (by omega)] at hdiff
      obtain ⟨hlast, hnew⟩ := List.getElem?_eq_some_iff.1 hdiff
      rw [List.length_singleton] at hlast
      obtain ⟨master, hmaster, hid⟩ := List.mem_map.1 h.master
      obtain ⟨smaller, hsmaller, hget⟩ := List.getElem_of_mem hmaster
      refine ⟨smaller, master, by omega, ?_, ?_⟩
      · rw [List.getElem?_append_left hsmaller, List.getElem?_eq_getElem hsmaller, hget]
      · rw [hid, ← hnew]
        simp [Daemon.newDiff]
  · simp only [Daemon.updated, List.mem_append, List.mem_singleton] at hdiff
    rcases hdiff with hdiff | rfl
    · exact h.named diff hdiff
    · exact (daemon.sha.hexId _).validName.1.1 ∘ Or.inl

/-- Moving the master to a diff keeps the history rooted. -/
theorem moved (h : object.Rooted) {rev text : Bytes} (hrev : object.hasDiff rev = true) :
    Rooted { object with head := text, master := rev } :=
  ⟨Object.hasDiff_iff.1 hrev, h.first, h.linked, h.named⟩

/-- Every change keeps the history rooted, whether it succeeds, fails or throws. -/
theorem step {live : Live} (h : live.object.Rooted) (daemon : Daemon) (dmp : Apply)
    (call : Change) : (daemon.stepLive dmp live call).object.Rooted := by
  cases call with
  | update now content =>
      rw [Daemon.object_step_update]
      split
      · exact h.updated daemon now content
      · exact h
  | rollback rev =>
      rw [Daemon.object_step_rollback]
      unfold getObjectRev
      by_cases hrev : live.object.hasDiff rev = true
      · rw [if_pos hrev]
        cases live.object.getRev dmp rev with
        | ok text => exact h.moved hrev
        | error text => exact h
      · rw [if_neg hrev]
        exact h

/-- A run of changes keeps the history rooted. -/
theorem run {live : Live} (h : live.object.Rooted) (daemon : Daemon) (dmp : Apply)
    (calls : List Change) : (daemon.runLive dmp calls live).object.Rooted := by
  induction calls generalizing live with
  | nil => exact h
  | cons call calls ih => exact ih (h.step daemon dmp call)

end Rooted

end Db.Object

/-- A rooted object has a rooted history. -/
theorem Db.Object.Rooted.history {object : Object} (h : object.Rooted) : object.RootedHistory := by
  refine ⟨h.master, h.first, fun index diff hpos hdiff => ?_, ?_⟩
  · obtain ⟨smaller, other, hsmaller, hother, hlink⟩ :=
      h.linked (index - 1) diff (by rwa [Nat.sub_add_cancel hpos])
    exact ⟨smaller, other, by omega, hother, hlink⟩
  · obtain ⟨diff, hdiff, hid⟩ := List.mem_map.1 h.master
    obtain ⟨index, hindex, hget⟩ := List.getElem_of_mem hdiff
    obtain ⟨first, other, -, hfirst, hother⟩ :=
      Object.indexOf_le ((List.getElem?_eq_getElem hindex).trans (congrArg some hget))
    rw [hid] at hfirst
    obtain ⟨trail, htrail, hsorted, -, hlast⟩ := h.trail_of_index first hfirst hother
    exact ⟨trail, htrail, hsorted, hlast⟩

/-- Every run of updates and rollbacks of an object that was made leaves a rooted history. -/
theorem prev_links_rooted (daemon : Daemon) (dmp : Apply) (now : Nat) (content id : Bytes)
    (world : World) (calls : List Change) (hmakes : daemon.Makes [] content) :
    (daemon.runLive dmp calls (daemon.start now content id world)).object.RootedHistory := by
  have hstart : (daemon.start now content id world).object.Rooted := by
    rw [Daemon.object_start, if_pos hmakes]
    exact .created daemon now content id
  exact (hstart.run daemon dmp calls).history

/-- The content `a` is updated to `b`, to `b` again and to `a`, and rolled back in between to a
revision that there is and to one that there is not. -/
theorem prev_links_rooted_letters :
    (Hunk.daemon.runLive Hunk.letterApply [.update 1 [98], .update 2 [98],
        .rollback (toHex (Hunk.store.sha.hash (Hunk.make [] [97]))), .rollback [107], .update 3 [97]]
      (Hunk.daemon.start 0 [97] [107] Hunk.store.fresh)).object.RootedHistory :=
  prev_links_rooted Hunk.daemon Hunk.letterApply 0 [97] [107] Hunk.store.fresh _ rfl

/-! ## An update after a rollback -/

/-- The diffs of the object were made by the constructor of `Diff`. -/
def Daemon.MadeDiffs (daemon : Daemon) (object : Object) : Prop :=
  ∀ diff ∈ object.diffs, diff.id = toHex (daemon.sha.hash diff.content)

/-- When a rollback and then an update succeed, the master revision replays to the new content. -/
def Daemon.KeepsContent (daemon : Daemon) (dmp : Apply) (live : Live) (rev : Bytes) (now : Nat)
    (content : Bytes) : Prop :=
  ∀ middle last, (daemon.rollbackLive dmp rev).run live = .ok true middle →
    (daemon.updateLive now content).run middle = .ok true last →
    getObjectRev dmp last.object last.object.master = .ok (some content)

section Rollback

variable {daemon : Daemon} {dmp : Apply} {live middle last : Live} {rev : Bytes}

/-- A call that returns keeps its object. -/
theorem Daemon.object_of_saveLive {flag : Bool} (h : daemon.saveLive.run live = .ok flag last) :
    last.object = live.object := by
  have := object_onDisk (daemon.save live.object) live
  rw [show (onDisk (daemon.save live.object)).run live = .ok flag last from h] at this
  exact this

/-- The object that a successful rollback leaves. -/
theorem Daemon.object_of_rollback (h : (daemon.rollbackLive dmp rev).run live = .ok true middle) :
    ∃ text, live.object.getRev dmp rev = .ok text ∧
      middle.object = { live.object with head := text, master := rev } := by
  simp only [rollbackLive, EStateM.run_bind, EStateM.run_get, getObjectRev] at h
  by_cases hrev : live.object.hasDiff rev = true
  · rw [if_pos hrev] at h
    cases hget : live.object.getRev dmp rev with
    | error text => simp [hget] at h
    | ok text =>
        simp only [hget, EStateM.run_bind] at h
        exact ⟨text, rfl, object_of_saveLive h⟩
  · rw [if_neg hrev] at h
    simp at h

/-- The object that a successful rollback to a known content leaves. -/
theorem Daemon.object_of_rollback_eq
    (h : (daemon.rollbackLive dmp rev).run live = .ok true middle) {text : Bytes}
    (htext : live.object.getRev dmp rev = .ok text) :
    middle.object = { live.object with head := text, master := rev } := by
  obtain ⟨found, hfound, hobject⟩ := object_of_rollback h
  rw [htext, Except.ok.injEq] at hfound
  rw [hobject, hfound]

/-- The object that an update leaves. -/
theorem Daemon.object_of_update {now : Nat} {content : Bytes} {flag : Bool}
    (h : (daemon.updateLive now content).run live = .ok flag last) :
    last.object = daemon.updated live.object now content := by
  by_cases hmakes : daemon.Makes live.object.head content
  · rw [run_updateLive_makes hmakes] at h
    exact object_of_saveLive h
  · rw [run_updateLive_makes_not hmakes] at h
    cases h

/-- A rollback depends on the patches of the object only. -/
theorem Daemon.run_rollback_congr {other : Apply}
    (h : ∀ diff ∈ live.object.diffs, other diff.content = dmp diff.content) :
    (daemon.rollbackLive other rev).run live = (daemon.rollbackLive dmp rev).run live := by
  have hget : getObjectRev other live.object rev = getObjectRev dmp live.object rev := by
    unfold getObjectRev Object.getRev
    rw [Replay.replayTo_congr]
    intro entry hentry
    obtain ⟨diff, hdiff, rfl⟩ := List.mem_map.1 hentry
    exact h diff hdiff
  simp only [rollbackLive, EStateM.run_bind, EStateM.run_get, hget]

/-- The master revision of an updated object whose new id is new: the new patch is applied to what
all older diffs replay to. -/
theorem Daemon.getObjectRev_updated {object : Object} {now : Nat} {content : Bytes}
    (hfresh : object.hasDiff (daemon.updated object now content).master = false) :
    getObjectRev dmp (daemon.updated object now content) (daemon.updated object now content).master =
      match Replay.replay dmp (object.diffs.map Diff.content) [] with
      | .ok text =>
          match dmp (daemon.library.patchText object.head content) text with
          | .ok result => .ok (some result)
          | .error fault => .error fault
      | .error fault => .error fault := by
  have hlog : (daemon.updated object now content).log =
      object.log ++ [((daemon.updated object now content).master,
        daemon.library.patchText object.head content)] := by
    simp [Object.log, Daemon.updated, newDiff]
  have hnew : ∀ entry ∈ object.log, entry.1 ≠ (daemon.updated object now content).master := by
    intro entry hentry heq
    have hmem : entry.1 ∈ object.diffs.map Diff.id := by
      rw [← Object.map_fst_log]
      exact List.mem_map_of_mem hentry
    rw [heq] at hmem
    rw [Object.hasDiff_iff.2 hmem] at hfresh
    simp at hfresh
  have hhas : (daemon.updated object now content).hasDiff
      (daemon.updated object now content).master = true := by
    rw [Object.hasDiff_iff]
    simp [Daemon.updated]
  rw [getObjectRev, if_pos hhas, Object.getRev, hlog, Replay.replayTo_of_first hnew,
    Object.map_snd_log, Replay.replay_append]
  cases Replay.replay dmp (object.diffs.map Diff.content) [] with
  | error fault => rfl
  | ok text =>
      simp only [Replay.replay]
      cases dmp (daemon.library.patchText object.head content) text <;> rfl

/-- A patch library in which one patch does something else to one text. -/
def Daemon.altered (dmp : Apply) (patch text : Bytes) (result : Bytes) : Apply :=
  fun other start => if other = patch ∧ start = text then .ok result else dmp other start

/-- A library may do anything to a text with a patch that was not made from this text. -/
theorem Daemon.lawful_altered {patch text result : Bytes}
    (hlaw : Replay.Lawful daemon.library.patch dmp)
    (h : ∀ new, daemon.library.patch text new ≠ some patch) :
    Replay.Lawful daemon.library.patch (altered dmp patch text result) := by
  intro old new
  obtain ⟨made, hmade, hact⟩ := hlaw old new
  refine ⟨made, hmade, ?_⟩
  unfold altered
  rw [if_neg, hact]
  rintro ⟨rfl, rfl⟩
  exact h new hmade

/-- The text of the patch that a lawful library makes. -/
theorem Daemon.patchText_of_lawful (hlaw : Replay.Lawful daemon.library.patch dmp)
    (old new : Bytes) : daemon.library.patch old new = some (daemon.library.patchText old new) ∧
      dmp (daemon.library.patchText old new) old = .ok new := by
  obtain ⟨patch, hpatch, hact⟩ := hlaw old new
  rw [Library.patchText, hpatch, Option.getD_some]
  exact ⟨rfl, hact⟩

variable {now : Nat} {content : Bytes}

/-- A rollback and an update that succeed, by what is read of the master revision then. -/
theorem Daemon.keepsContent_iff {other : Apply}
    (hrollback : (daemon.rollbackLive dmp rev).run live = .ok true middle)
    (hupdate : (daemon.updateLive now content).run middle = .ok true last)
    (hagree : ∀ diff ∈ live.object.diffs, other diff.content = dmp diff.content) :
    daemon.KeepsContent other live rev now content ↔
      getObjectRev other last.object last.object.master = .ok (some content) := by
  have hsame : (daemon.rollbackLive other rev).run live = (daemon.rollbackLive dmp rev).run live :=
    Daemon.run_rollback_congr hagree
  constructor
  · intro h
    exact h middle last (hsame.trans hrollback) hupdate
  · intro h middle' last' hrollback' hupdate'
    rw [hsame, hrollback, EStateM.Result.ok.injEq] at hrollback'
    rw [← hrollback'.2, hupdate, EStateM.Result.ok.injEq] at hupdate'
    rw [← hupdate'.2]
    exact h

/-- The answer of the replay is the content exactly if the new patch leads to it from what all diffs
replay to. -/
theorem Daemon.getObjectRev_eq_iff {other : Apply} {old : Bytes}
    (hold : live.object.getRev dmp rev = .ok old)
    (hrollback : (daemon.rollbackLive dmp rev).run live = .ok true middle)
    (hupdate : (daemon.updateLive now content).run middle = .ok true last)
    (hfresh : live.object.hasDiff last.object.master = false)
    (hagree : ∀ diff ∈ live.object.diffs, other diff.content = dmp diff.content) :
    getObjectRev other last.object last.object.master = .ok (some content) ↔
      ∃ text, Replay.replay dmp (live.object.diffs.map Diff.content) [] = .ok text ∧
        other (daemon.library.patchText old content) text = .ok content := by
  have hmiddle := Daemon.object_of_rollback_eq hrollback hold
  have hlast := Daemon.object_of_update hupdate
  have hdiffs : middle.object.diffs = live.object.diffs := by rw [hmiddle]
  have hhead : middle.object.head = old := by rw [hmiddle]
  have hfresh' : middle.object.hasDiff (daemon.updated middle.object now content).master = false := by
    rw [← hlast, Object.hasDiff, hdiffs]
    exact hfresh
  have hcongr : Replay.replay other (live.object.diffs.map Diff.content) [] =
      Replay.replay dmp (live.object.diffs.map Diff.content) [] := by
    refine Replay.replay_congr (fun patch hpatch => ?_) []
    obtain ⟨diff, hdiff, rfl⟩ := List.mem_map.1 hpatch
    exact hagree diff hdiff
  rw [hlast, Daemon.getObjectRev_updated hfresh', hdiffs, hhead, hcongr]
  cases Replay.replay dmp (live.object.diffs.map Diff.content) [] with
  | error fault => simp
  | ok text =>
      simp only [Except.ok.injEq, exists_eq_left']
      cases other (daemon.library.patchText old content) text <;> simp

/-- A rollback followed by an update keeps the new content exactly if the patch from the restored
text to the content leads to it from the text that all diffs replay to. It does so whatever a lawful
library makes of other texts exactly if it is also the patch from this text. -/
theorem rollback_update_keeps_content_iff (daemon : Daemon) (dmp : Apply) (live middle last : Live)
    (rev : Bytes) (now : Nat) (content : Bytes) (hmade : daemon.MadeDiffs live.object)
    (hrollback : (daemon.rollbackLive dmp rev).run live = .ok true middle)
    (hupdate : (daemon.updateLive now content).run middle = .ok true last)
    (hfresh : live.object.hasDiff last.object.master = false) :
    (daemon.KeepsContent dmp live rev now content ↔
      ∃ old text, live.object.getRev dmp rev = .ok old ∧
        Replay.replay dmp (live.object.diffs.map Diff.content) [] = .ok text ∧
        dmp (daemon.library.patchText old content) text = .ok content) ∧
    (Replay.Lawful daemon.library.patch dmp →
      ((∀ other : Apply, Replay.Lawful daemon.library.patch other →
          (∀ diff ∈ live.object.diffs, other diff.content = dmp diff.content) →
          daemon.KeepsContent other live rev now content) ↔
        ∃ old text, live.object.getRev dmp rev = .ok old ∧
          Replay.replay dmp (live.object.diffs.map Diff.content) [] = .ok text ∧
          daemon.library.patch text content = daemon.library.patch old content)) := by
  obtain ⟨old, hold, hmiddle⟩ := Daemon.object_of_rollback hrollback
  have hkeeps : ∀ other : Apply,
      (∀ diff ∈ live.object.diffs, other diff.content = dmp diff.content) →
      (daemon.KeepsContent other live rev now content ↔
        ∃ text, Replay.replay dmp (live.object.diffs.map Diff.content) [] = .ok text ∧
          other (daemon.library.patchText old content) text = .ok content) :=
    fun other hagree => (Daemon.keepsContent_iff hrollback hupdate hagree).trans
      (Daemon.getObjectRev_eq_iff hold hrollback hupdate hfresh hagree)
  refine ⟨?_, fun hlaw => ⟨fun h => ?_, ?_⟩⟩
  · rw [hkeeps dmp fun _ _ => rfl]
    constructor
    · rintro ⟨text, htext, happly⟩
      exact ⟨old, text, hold, htext, happly⟩
    · rintro ⟨old', text, hold', htext, happly⟩
      obtain rfl : old = old' := Except.ok.inj (hold.symm.trans hold')
      exact ⟨text, htext, happly⟩
  · obtain ⟨text, htext, happly⟩ := (hkeeps dmp fun _ _ => rfl).1 (h dmp hlaw fun _ _ => rfl)
    obtain ⟨hpatch, -⟩ := Daemon.patchText_of_lawful hlaw old content
    refine ⟨old, text, hold, htext, ?_⟩
    by_contra hother
    -- the new patch was not made from this text, so a library may do otherwise there
    have hfree : ∀ new, daemon.library.patch text new ≠
        some (daemon.library.patchText old content) := by
      intro new hnew
      obtain ⟨patch, hmake, hact⟩ := hlaw text new
      obtain rfl : daemon.library.patchText old content = patch :=
        Option.some.inj (hnew.symm.trans hmake)
      obtain rfl : content = new := Except.ok.inj (happly.symm.trans hact)
      exact hother (hnew.trans hpatch.symm)
    have hagree : ∀ diff ∈ live.object.diffs, Daemon.altered dmp
        (daemon.library.patchText old content) text (content ++ [0]) diff.content =
          dmp diff.content := by
      intro diff hdiff
      have hne : diff.content ≠ daemon.library.patchText old content := by
        intro heq
        have hmem : last.object.master ∈ live.object.diffs.map Diff.id := by
          refine List.mem_map.2 ⟨diff, hdiff, ?_⟩
          rw [hmade diff hdiff, heq, Daemon.object_of_update hupdate, hmiddle]
          rfl
        rw [Object.hasDiff_iff.2 hmem] at hfresh
        simp at hfresh
      funext start
      rw [Daemon.altered, if_neg fun hboth => hne hboth.1]
    obtain ⟨text', htext', hother'⟩ :=
      (hkeeps _ hagree).1 (h _ (Daemon.lawful_altered hlaw hfree) hagree)
    obtain rfl : text = text' := Except.ok.inj (htext.symm.trans htext')
    simp [Daemon.altered] at hother'
  · rintro ⟨old', text, hold', htext, hpatch⟩ other hother hagree
    obtain rfl : old = old' := Except.ok.inj (hold.symm.trans hold')
    refine (hkeeps other hagree).2 ⟨text, htext, ?_⟩
    have happly := (Daemon.patchText_of_lawful hother text content).2
    rwa [Library.patchText, hpatch] at happly

end Rollback

/-- The object `k` with the content `a`. -/
def letterLive : Live := Hunk.daemon.start 0 [97] [107] Hunk.store.fresh

/-- The revision with the content `a`. -/
def letterRev : Bytes := toHex (Hunk.store.sha.hash (Hunk.make [] [97]))

/-- The object in memory. -/
theorem letterLive_object : letterLive.object = Hunk.daemon.created .new 0 [97] [107] := by
  rw [letterLive, Daemon.object_start, if_pos (show Hunk.daemon.Makes [] [97] from rfl)]

/-- A rollback to the only revision and an update keep the new content, also if the library applies
the patch to other texts in another way. -/
theorem rollback_update_keeps_letter :
    (∃ middle last,
        (Hunk.lawfulDaemon.rollbackLive Hunk.dmp letterRev).run letterLive = .ok true middle ∧
        (Hunk.lawfulDaemon.updateLive 1 [98]).run middle = .ok true last) ∧
      Hunk.lawfulDaemon.KeepsContent Hunk.dmp letterLive letterRev 1 [98] ∧
      ∀ other : Apply, Replay.Lawful Hunk.lawfulDaemon.library.patch other →
        (∀ diff ∈ letterLive.object.diffs, other diff.content = Hunk.dmp diff.content) →
        Hunk.lawfulDaemon.KeepsContent other letterLive letterRev 1 [98] := by
  obtain ⟨last, hboth⟩ := EStateM.Result.exists_of_isTrue
    (show (((Hunk.lawfulDaemon.rollbackLive Hunk.dmp letterRev).both
      (Hunk.lawfulDaemon.updateLive 1 [98])).run letterLive).isTrue = true by decide +kernel)
  obtain ⟨middle, hrollback, hupdate⟩ := EStateM.run_both_eq_true hboth
  have htext : letterLive.object.getRev Hunk.dmp letterRev = .ok [97] := by
    rw [letterLive_object]
    decide +kernel
  have hreplay : Replay.replay Hunk.dmp (letterLive.object.diffs.map Diff.content) [] =
      .ok [97] := by
    rw [letterLive_object]
    decide +kernel
  have hmade : Hunk.lawfulDaemon.MadeDiffs letterLive.object := by
    intro diff hdiff
    simp only [letterLive_object, Daemon.created, Object.new, List.nil_append,
      List.mem_singleton] at hdiff
    rw [hdiff]
    rfl
  have hfresh : letterLive.object.hasDiff last.object.master = false := by
    rw [Daemon.object_of_update hupdate, Daemon.object_of_rollback_eq hrollback htext,
      letterLive_object]
    decide +kernel
  obtain ⟨hkeeps, hall⟩ := rollback_update_keeps_content_iff Hunk.lawfulDaemon Hunk.dmp letterLive
    middle last letterRev 1 [98] hmade hrollback hupdate hfresh
  exact ⟨⟨middle, last, hrollback, hupdate⟩, hkeeps.2 ⟨[97], [97], htext, hreplay, by decide⟩,
    (hall Hunk.lawful).2 ⟨[97], [97], htext, hreplay, rfl⟩⟩

/-! ## Three patches of digits -/

section Digits

open DiffMatchPatch

/-- The patch from the empty text to `0123`. -/
def firstPatch : Bytes := ascii "@@ -0,0 +1,4 @@\n+0123\n"

/-- The patch from `0123` to `0123Z`. -/
def behindPatch : Bytes := ascii "@@ -1,4 +1,5 @@\n 0123\n+Z\n"

/-- The patch from `0123` to `X0123`. -/
def frontPatch : Bytes := ascii "@@ -1,4 +1,5 @@\n+X\n 0123\n"

/-- A store in the directory `/data` with the digests of the three patches. -/
def digitsStore : FFStore :=
  FFStore.initialise (.ofDigests
    [(firstPatch, digest
        0x3c24d5300da2c73f17af54ade130e1c775c0534a4e2f97b3f55df007e56f2e5f
        0x422fcfb7db08ccfd7953e13b206da4e32b11b4e9e38159ec4756b26a059574bf),
      (behindPatch, digest
        0x3e6b51986c90f75e643e6e19ca194a751dd86c1aebf4cf596e665f77f7d2bd25
        0xb5697a5464aa7d2e4aaf006462afeea1cabb9c04814e0d64dcbb2928bbecdca8),
      (frontPatch, digest
        0x8c3cf3c37093c058575298a37734dcae0f29b1d8b2618682f28b33f3a6f7038f
        0x4bae7c0c64b8b5f5314400a03c1f69b15742d077642e97a3d019d0857d22ae16)])
    [[100, 97, 116, 97]] validPath_data

/-- The daemon over this store, with the patches that `diff_match_patch` makes. -/
def digitsDaemon : Daemon where
  sha := digitsStore.sha
  library := DiffMatchPatch.library fun _ _ => none
  plugins := [digitsStore.plugin FFStore.plainPlatform]

theorem patch_first : digitsDaemon.library.patch [] (ascii "0123") = some firstPatch :=
  @patchBetween_insertion [] (ascii "0123") [] none (by decide) (by decide) (by decide)
    (@cleanupMerge_eq_some (inserted [] (ascii "0123") []) (inserted [] (ascii "0123") []) rfl rfl)
    (fun hlong => absurd hlong (by decide)) _ rfl _ rfl

theorem patch_behind : digitsDaemon.library.patch (ascii "0123") (ascii "0123Z") =
    some behindPatch :=
  @patchBetween_insertion (ascii "0123") (ascii "Z") [] none (by decide) (by decide) (by decide)
    (@cleanupMerge_eq_some (inserted (ascii "0123") (ascii "Z") [])
      (inserted (ascii "0123") (ascii "Z") []) rfl rfl)
    (fun hlong => absurd hlong (by decide)) _ rfl _ rfl

theorem patch_front : digitsDaemon.library.patch (ascii "0123") (ascii "X0123") =
    some frontPatch :=
  @patchBetween_insertion [] (ascii "X") (ascii "0123") none (by decide) (by decide) (by decide)
    (@cleanupMerge_eq_some (inserted [] (ascii "X") (ascii "0123"))
      (inserted [] (ascii "X") (ascii "0123")) rfl rfl)
    (fun hlong => absurd hlong (by decide)) _ rfl _ rfl

/-- The diffs of the object with the contents `0123` and `0123Z`. -/
def digitsDiffs : List Db.Diff :=
  [digitsDaemon.newDiff 0 firstPatch [],
    digitsDaemon.newDiff 1 behindPatch (digitsDaemon.newDiff 0 firstPatch []).id]

/-- The object `k` with the content `0123`. -/
def digitsFirst : Object where
  id := [107]
  master := (digitsDaemon.newDiff 0 firstPatch []).id
  diffs := [digitsDaemon.newDiff 0 firstPatch []]
  head := ascii "0123"

/-- The object `k` with the contents `0123` and then `0123Z`. -/
def digitsObject : Object where
  id := [107]
  master := (digitsDaemon.newDiff 1 behindPatch digitsFirst.master).id
  diffs := digitsDiffs
  head := ascii "0123Z"

/-- This object rolled back to `0123`. -/
def digitsBack : Object :=
  { digitsObject with head := ascii "0123", master := digitsFirst.master }

/-- The object that is rolled back and then updated to `X0123`. -/
def digitsLast : Object where
  id := [107]
  master := (digitsDaemon.newDiff 2 frontPatch digitsFirst.master).id
  diffs := digitsDiffs ++ [digitsDaemon.newDiff 2 frontPatch digitsFirst.master]
  head := ascii "X0123"

/-- The object in memory after it was created and updated. -/
def digitsLive : Live :=
  ((digitsDaemon.updateLive 1 (ascii "0123Z")).run
    (digitsDaemon.start 0 (ascii "0123") [107] digitsStore.fresh)).state

theorem digitsLive_eq : digitsLive = ⟨digitsObject,
    ((digitsDaemon.save digitsObject).run
      ((digitsDaemon.createObject digitsFirst).run digitsStore.fresh).state).state⟩ := by
  have hfirst : digitsDaemon.created .new 0 (ascii "0123") [107] = digitsFirst := by
    rw [Daemon.created, Library.patchText, patch_first]
    rfl
  have hnext : digitsDaemon.updated digitsFirst 1 (ascii "0123Z") = digitsObject := by
    rw [Daemon.updated, Library.patchText, show digitsFirst.head = ascii "0123" from rfl,
      patch_behind]
    rfl
  have hmakes : digitsDaemon.Makes [] (ascii "0123") := by
    rw [Daemon.Makes, patch_first, Option.isSome_some]
  have hmakes' : digitsDaemon.Makes digitsFirst.head (ascii "0123Z") := by
    rw [Daemon.Makes, show digitsFirst.head = ascii "0123" from rfl, patch_behind,
      Option.isSome_some]
  rw [digitsLive, Daemon.start_of_makes hmakes, hfirst, Daemon.run_updateLive_makes hmakes']
  rw [hnext, Daemon.state_saveLive]

/-- What the library makes of these patches: each leads from the text that it was made from to the
one that it was made for, and the third one puts its letter in front of other texts as well. -/
theorem dmp_digits (inexact : Inexact) (what : Native.Stop → Bytes) :
    inexact.dmp what firstPatch [] = .ok (ascii "0123") ∧
      inexact.dmp what behindPatch (ascii "0123") = .ok (ascii "0123Z") ∧
      inexact.dmp what frontPatch (ascii "0123") = .ok (ascii "X0123") ∧
      inexact.dmp what frontPatch (ascii "0123Z") = .ok (ascii "X0123Z") :=
  ⟨rfl, rfl, rfl, rfl⟩

/-- The object with the contents `0123` and `0123Z`, rolled back to `0123` and updated to `X0123`,
replays to `X0123Z`. -/
theorem rollback_update_loses_content :
    (digitsLive.object.diffs.map Diff.id).Nodup ∧
      digitsLive.object.hasDiff digitsFirst.master = true ∧
      ∀ (inexact : Inexact) (what : Native.Stop → Bytes),
        digitsLive.object.getRev (inexact.dmp what) digitsLive.object.master =
          .ok digitsLive.object.head ∧
        (∃ middle last,
          (digitsDaemon.rollbackLive (inexact.dmp what) digitsFirst.master).run digitsLive =
            .ok true middle ∧
          (digitsDaemon.updateLive 2 (ascii "X0123")).run middle = .ok true last ∧
          digitsLive.object.hasDiff last.object.master = false ∧
          getObjectRev (inexact.dmp what) last.object last.object.master =
            .ok (some (ascii "X0123Z"))) ∧
        ¬ digitsDaemon.KeepsContent (inexact.dmp what) digitsLive digitsFirst.master 2
          (ascii "X0123") := by
  obtain ⟨world, hlive⟩ : ∃ world, digitsLive = ⟨digitsObject, world⟩ := ⟨_, digitsLive_eq⟩
  have hhas : digitsObject.hasDiff digitsFirst.master = true := by decide +kernel
  have hnodup : (digitsObject.diffs.map Diff.id).Nodup := by decide +kernel
  have hfresh : digitsObject.hasDiff digitsLast.master = false := by decide +kernel
  -- both saves succeed
  obtain ⟨saved, hsaves⟩ := EStateM.Result.exists_of_isTrue
    (show (((digitsDaemon.save digitsBack).both (digitsDaemon.save digitsLast)).run
      digitsLive.world).isTrue = true by rw [digitsLive_eq]; decide +kernel)
  obtain ⟨between, hback, hlast⟩ := EStateM.run_both_eq_true hsaves
  rw [hlive] at hback ⊢
  refine ⟨hnodup, hhas, fun inexact what => ?_⟩
  obtain ⟨hfirst, hbehind, -, hfront⟩ := dmp_digits inexact what
  have hlog : digitsObject.log =
      [(digitsFirst.master, firstPatch), (digitsObject.master, behindPatch)] := rfl
  have hmaster : digitsObject.getRev (inexact.dmp what) digitsObject.master =
      .ok (ascii "0123Z") := by
    have hne : digitsFirst.master ≠ digitsObject.master := by decide +kernel
    rw [Object.getRev, hlog, Replay.replayTo, hfirst]
    simp only [if_neg hne, Replay.replayTo, hbehind, if_true]
  have hold : digitsObject.getRev (inexact.dmp what) digitsFirst.master = .ok (ascii "0123") := by
    rw [Object.getRev, hlog, Replay.replayTo, hfirst]
    simp only [if_true]
  have hreplay : Replay.replay (inexact.dmp what) (digitsObject.diffs.map Diff.content) [] =
      .ok (ascii "0123Z") := by
    rw [← Object.map_snd_log, hlog]
    simp only [List.map_cons, List.map_nil, Replay.replay, hfirst, hbehind]
  have hrollback : (digitsDaemon.rollbackLive (inexact.dmp what) digitsFirst.master).run
      ⟨digitsObject, world⟩ = .ok true ⟨digitsBack, between⟩ := by
    rw [Daemon.run_rollbackLive (show getObjectRev (inexact.dmp what) digitsObject
      digitsFirst.master = .ok (some (ascii "0123")) by rw [getObjectRev, if_pos hhas, hold])]
    exact Daemon.run_saveLive hback
  have hpatch : digitsDaemon.library.patch digitsBack.head (ascii "X0123") = some frontPatch :=
    patch_front
  have hnext : digitsDaemon.updated digitsBack 2 (ascii "X0123") = digitsLast := by
    rw [Daemon.updated, Library.patchText, hpatch]
    rfl
  have hupdate : (digitsDaemon.updateLive 2 (ascii "X0123")).run ⟨digitsBack, between⟩ =
      .ok true ⟨digitsLast, saved⟩ := by
    rw [Daemon.run_updateLive_makes (show digitsDaemon.Makes digitsBack.head (ascii "X0123") by
      rw [Daemon.Makes, hpatch, Option.isSome_some]), hnext]
    exact Daemon.run_saveLive hlast
  have hanswer : getObjectRev (inexact.dmp what) digitsLast digitsLast.master =
      .ok (some (ascii "X0123Z")) := by
    have hrev := @Daemon.getObjectRev_updated digitsDaemon (inexact.dmp what) digitsBack 2
      (ascii "X0123") (by rw [hnext]; exact hfresh)
    rw [hnext, show digitsBack.diffs = digitsObject.diffs from rfl, hreplay, Library.patchText,
      hpatch] at hrev
    simp only [Option.getD_some, hfront] at hrev
    exact hrev
  refine ⟨hmaster, ⟨_, _, hrollback, hupdate, hfresh, hanswer⟩, fun hkeeps => ?_⟩
  have hcontent := hkeeps _ _ hrollback hupdate
  rw [hanswer] at hcontent
  exact absurd hcontent (by decide)

end Digits

end AnarchNet
