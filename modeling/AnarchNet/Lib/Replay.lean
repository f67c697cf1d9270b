import Mathlib.Data.List.Basic
import Mathlib.Data.List.Chain
import Mathlib.Data.List.Nodup

/-!
# Texts kept as logs of patches

A text may be kept as the patches that lead to it from a starting text. `edits` is the log made of
a sequence of texts, `replay` applies a log, and `replayTo` applies a log whose entries have names
up to the first entry of a name. There may be no patch between two texts, and a patch may fail to
fit. The one law used is that there is one, and that it leads from the one text to the other.
-/

namespace Replay

variable {ε τ π ι : Type}

/-- A patch is made from every text to every other, and it leads from the one to the other. -/
def Lawful (make : τ → τ → Option π) (act : π → τ → Except ε τ) : Prop :=
  ∀ old new, ∃ patch, make old new = some patch ∧ act patch old = .ok new

/-- The text after a sequence of texts; one that there is no patch to is passed over. -/
def reached (make : τ → τ → Option π) : τ → List τ → τ
  | old, [] => old
  | old, new :: rest => reached make (if (make old new).isSome then new else old) rest

/-- The patches from a starting text through a sequence of texts. -/
def edits (make : τ → τ → Option π) : τ → List τ → List π
  | _, [] => []
  | old, new :: rest =>
      (make old new).toList ++ edits make (if (make old new).isSome then new else old) rest

/-- Apply the patches one after the other. -/
def replay (act : π → τ → Except ε τ) : List π → τ → Except ε τ
  | [], text => .ok text
  | patch :: rest, text =>
      match act patch text with
      | .ok next => replay act rest next
      | .error fault => .error fault

/-- Apply the patches one after the other and stop behind the first one of a name. -/
def replayTo [DecidableEq ι] (act : π → τ → Except ε τ) (name : ι) :
    List (ι × π) → τ → Except ε τ
  | [], text => .ok text
  | entry :: rest, text =>
      match act entry.2 text with
      | .ok next => if entry.1 = name then .ok next else replayTo act name rest next
      | .error fault => .error fault

section Edits

variable (make : τ → τ → Option π)

@[simp] theorem edits_nil (old : τ) : edits make old [] = [] := rfl

/-- One more text is reached if there is a patch to it. -/
theorem reached_snoc (old : τ) (texts : List τ) (new : τ) :
    reached make old (texts ++ [new]) =
      if (make (reached make old texts) new).isSome then new else reached make old texts := by
  induction texts generalizing old with
  | nil => rfl
  | cons text texts ih =>
      rw [List.cons_append, reached, ih]
      rfl

/-- One more text adds the patch that leads to it from the text that was reached. -/
theorem edits_snoc (old : τ) (texts : List τ) (new : τ) :
    edits make old (texts ++ [new]) =
      edits make old texts ++ (make (reached make old texts) new).toList := by
  induction texts generalizing old with
  | nil => exact List.append_nil _
  | cons text texts ih =>
      rw [List.cons_append, edits, ih, edits, List.append_assoc]
      rfl

section Lawful

variable {make} {act : π → τ → Except ε τ} (h : Lawful make act)

include h

/-- Every text is reached. -/
theorem reached_of_lawful (old : τ) (texts : List τ) :
    reached make old texts = texts.getLast?.getD old := by
  induction texts generalizing old with
  | nil => rfl
  | cons new texts ih =>
      obtain ⟨patch, hpatch, -⟩ := h old new
      rw [reached, hpatch, Option.isSome_some, if_pos rfl, ih, List.getLast?_cons,
        Option.getD_some]

/-- Every text adds its patch. -/
theorem edits_cons_of_lawful (old new : τ) (texts : List τ) :
    ∃ patch, edits make old (new :: texts) = patch :: edits make new texts ∧
      act patch old = .ok new := by
  obtain ⟨patch, hpatch, hact⟩ := h old new
  refine ⟨patch, ?_, hact⟩
  rw [edits, hpatch, Option.isSome_some, if_pos rfl, Option.toList_some, List.singleton_append]

/-- There is a patch per text. -/
theorem length_edits (old : τ) (texts : List τ) : (edits make old texts).length = texts.length := by
  induction texts generalizing old with
  | nil => rfl
  | cons new texts ih =>
      obtain ⟨patch, hedits, -⟩ := edits_cons_of_lawful h old new texts
      rw [hedits, List.length_cons, ih, List.length_cons]

/-- The patches through some of the texts are some of the patches. -/
theorem edits_take (old : τ) (texts : List τ) (count : Nat) :
    edits make old (texts.take count) = (edits make old texts).take count := by
  induction texts generalizing old count with
  | nil => rw [List.take_nil, edits_nil, List.take_nil]
  | cons text texts ih =>
      cases count with
      | zero => rfl
      | succ count =>
          obtain ⟨patch, hpatch, hact⟩ := h old text
          simp only [List.take_succ_cons, edits, hpatch, Option.isSome_some, if_true,
            Option.toList_some, List.singleton_append, ih]

/-- A log made of texts replays to the last of them. -/
theorem replay_edits (old : τ) (texts : List τ) :
    replay act (edits make old texts) old = .ok (texts.getLast?.getD old) := by
  induction texts generalizing old with
  | nil => rfl
  | cons new texts ih =>
      obtain ⟨patch, hedits, hact⟩ := edits_cons_of_lawful h old new texts
      rw [hedits, replay, hact, List.getLast?_cons, Option.getD_some]
      exact ih new

end Lawful

end Edits

section Replay

variable {act : π → τ → Except ε τ}

/-- Replaying two logs replays the first and then the second. -/
theorem replay_append (left right : List π) (text : τ) :
    replay act (left ++ right) text =
      match replay act left text with
      | .ok middle => replay act right middle
      | .error fault => .error fault := by
  induction left generalizing text with
  | nil => rfl
  | cons patch left ih =>
      rw [List.cons_append, replay, replay]
      cases act patch text with
      | ok next => exact ih next
      | error fault => rfl

/-- Only the patches of the log matter. -/
theorem replay_congr {other : π → τ → Except ε τ} {log : List π}
    (h : ∀ patch ∈ log, other patch = act patch) (text : τ) :
    replay other log text = replay act log text := by
  induction log generalizing text with
  | nil => rfl
  | cons patch log ih =>
      rw [replay, replay, h patch (by simp)]
      cases act patch text with
      | ok next => exact ih (fun other hother => h other (by simp [hother])) next
      | error fault => rfl

variable [DecidableEq ι]

/-- Replaying to a name that first occurs at an entry replays up to this entry. -/
theorem replayTo_of_first {name : ι} {front back : List (ι × π)} {patch : π}
    (h : ∀ entry ∈ front, entry.1 ≠ name) (text : τ) :
    replayTo act name (front ++ (name, patch) :: back) text =
      replay act (front.map Prod.snd ++ [patch]) text := by
  induction front generalizing text with
  | nil =>
      simp only [List.nil_append, List.map_nil, replayTo, replay, if_true]
  | cons entry front ih =>
      simp only [List.cons_append, List.map_cons, replayTo, replay, if_neg (h entry (by simp))]
      cases act entry.2 text with
      | ok next => exact ih (fun other hother => h other (by simp [hother])) next
      | error fault => rfl

/-- Only the patches of the log matter. -/
theorem replayTo_congr {other : π → τ → Except ε τ} {log : List (ι × π)} {name : ι}
    (h : ∀ entry ∈ log, other entry.2 = act entry.2) (text : τ) :
    replayTo other name log text = replayTo act name log text := by
  induction log generalizing text with
  | nil => rfl
  | cons entry log ih =>
      rw [replayTo, replayTo, h entry (by simp)]
      cases act entry.2 text with
      | error fault => rfl
      | ok next =>
          simp only
          rw [ih fun other hother => h other (by simp [hother])]

/-- In a log with distinct names, replaying to the name of an entry replays up to this entry. -/
theorem replayTo_of_nodup {log : List (ι × π)} (h : (log.map Prod.fst).Nodup) {index : Nat}
    (hindex : index < log.length) (text : τ) :
    replayTo act log[index].1 log text =
      replay act ((log.map Prod.snd).take (index + 1)) text := by
  have hsplit : log = log.take index ++ (log[index].1, log[index].2) :: log.drop (index + 1) := by
    rw [Prod.eta, List.getElem_cons_drop, List.take_append_drop]
  have hfirst : ∀ entry ∈ log.take index, entry.1 ≠ log[index].1 := by
    intro entry hentry heq
    rw [hsplit, List.map_append, List.map_cons] at h
    exact (List.nodup_append.1 h).2.2 _ (List.mem_map_of_mem hentry) _ List.mem_cons_self heq
  calc replayTo act log[index].1 log text
      = replayTo act log[index].1
          (log.take index ++ (log[index].1, log[index].2) :: log.drop (index + 1)) text := by
        rw [← hsplit]
    _ = replay act ((log.take index).map Prod.snd ++ [log[index].2]) text :=
        replayTo_of_first hfirst text
    _ = replay act ((log.map Prod.snd).take (index + 1)) text := by
        rw [List.map_take, List.take_add_one, List.getElem?_map, List.getElem?_eq_getElem hindex]
        rfl

end Replay

end Replay
