import AnarchNet.Lib.Effect
import Mathlib.Logic.Function.Basic

/-!
# Two threads on one state

A thread is a sequence of atomic calls, each chosen from the answers to the earlier ones. A
schedule says whose turn it is. A schedule of one thread only runs that thread as it would run
alone; an invariant that every turn keeps holds at the end of every schedule.
-/

namespace Threads

variable {ι ε σ α : Type} {ρ : ι → Type}

/-- A thread: it has returned, an exception has left it, or it is about to make a call and goes on
with the answer. -/
inductive Thread (ρ : ι → Type) (ε α : Type) where
  | returned (value : α)
  | threw (fault : ε)
  | call (op : ι) (next : ρ op → Thread ρ ε α)

/-- Two threads and the state they share. -/
structure Config (ρ : ι → Type) (ε α σ : Type) where
  thread : Bool → Thread ρ ε α
  state : σ

/-- First only one thread, then only the other. -/
def Serial (schedule : List Bool) : Prop :=
  ∃ who first second, schedule = List.replicate first who ++ List.replicate second (!who)

variable (perform : (op : ι) → EStateM ε σ (ρ op))

namespace Thread

/-- No call is left. -/
def Ended : Thread ρ ε α → Prop
  | call _ _ => False
  | _ => True

/-- A thread that runs to its end without another one in between. -/
def alone : Thread ρ ε α → EStateM ε σ α
  | returned value => return value
  | threw fault => throw fault
  | call op next => do alone (next (← perform op))

/-- The next call of a thread. -/
def step : Thread ρ ε α → σ → Option (Thread ρ ε α × σ)
  | call op next, state =>
      match (perform op).run state with
      | .ok answer after => some (next answer, after)
      | .error fault after => some (threw fault, after)
  | _, _ => none

variable {perform}

/-- A thread that has ended makes no step. -/
theorem Ended.step_eq_none {thread : Thread ρ ε α} (h : thread.Ended) (state : σ) :
    thread.step perform state = none := by
  cases thread with
  | call op next => exact h.elim
  | returned value => rfl
  | threw fault => rfl

/-- A step is the beginning of what the thread does alone. -/
theorem alone_of_step {thread next : Thread ρ ε α} {state after : σ}
    (h : thread.step perform state = some (next, after)) :
    (thread.alone perform).run state = (next.alone perform).run after := by
  cases thread with
  | returned value => cases h
  | threw fault => cases h
  | call op continuation =>
      rw [step] at h
      rw [alone, EStateM.run_bind]
      cases hrun : (perform op).run state with
      | ok answer middle =>
          simp only [hrun, Option.some.injEq, Prod.mk.injEq] at h
          obtain ⟨rfl, rfl⟩ := h
          rfl
      | error fault middle =>
          simp only [hrun, Option.some.injEq, Prod.mk.injEq] at h
          obtain ⟨rfl, rfl⟩ := h
          rfl

/-- A thread that has ended and returns a value alone has returned it. -/
theorem Ended.eq_returned {thread : Thread ρ ε α} (h : thread.Ended) {state after : σ} {value : α}
    (hrun : (thread.alone perform).run state = .ok value after) :
    thread = .returned value ∧ state = after := by
  cases thread with
  | call op next => exact h.elim
  | returned found =>
      rw [alone, EStateM.run_pure, EStateM.Result.ok.injEq] at hrun
      exact ⟨congrArg returned hrun.1, hrun.2⟩
  | threw fault =>
      rw [alone, EStateM.run_throw_eq] at hrun
      cases hrun

end Thread

namespace Config

/-- A step of one of the threads. -/
def turn (config : Config ρ ε α σ) (who : Bool) : Option (Config ρ ε α σ) :=
  ((config.thread who).step perform config.state).map fun (next, after) =>
    ⟨Function.update config.thread who next, after⟩

/-- The turns of a schedule; a thread that has ended gets no turn. -/
def run : List Bool → Config ρ ε α σ → Option (Config ρ ε α σ)
  | [], config => some config
  | who :: rest, config => (config.turn perform who).bind (run rest)

variable {perform} {config last : Config ρ ε α σ} {who : Bool}

/-- A turn is a step of one thread, and the other one stays as it is. -/
theorem turn_eq_some (h : config.turn perform who = some last) :
    (config.thread who).step perform config.state = some (last.thread who, last.state) ∧
      last.thread (!who) = config.thread (!who) := by
  obtain ⟨⟨next, after⟩, hstep, rfl⟩ := Option.map_eq_some_iff.1 h
  refine ⟨?_, Function.update_of_ne (by simp) _ _⟩
  simp only [hstep, Function.update_self]

/-- A schedule in two parts. -/
theorem run_append (first second : List Bool) (config : Config ρ ε α σ) :
    run perform (first ++ second) config = (run perform first config).bind (run perform second) := by
  induction first generalizing config with
  | nil => rfl
  | cons who first ih =>
      rw [List.cons_append, run, run]
      cases config.turn perform who with
      | none => rfl
      | some next => exact ih next

/-- What every turn keeps holds at the end of a schedule. -/
theorem run_invariant (Inv : Config ρ ε α σ → Prop) {schedule : List Bool}
    (hturn : ∀ config, ∀ who ∈ schedule, ∀ next, Inv config →
      config.turn perform who = some next → Inv next)
    (hrun : run perform schedule config = some last) (h : Inv config) : Inv last := by
  induction schedule generalizing config with
  | nil =>
      rw [run, Option.some.injEq] at hrun
      exact hrun ▸ h
  | cons who schedule ih =>
      obtain ⟨next, hnext, hrest⟩ := Option.bind_eq_some_iff.1 hrun
      exact ih (fun config other hother => hturn config other (List.mem_cons_of_mem _ hother)) hrest
        (hturn config who List.mem_cons_self next h hnext)

/-- Turns of one thread only: the other one stays as it is, and this one has done a beginning of
what it does alone. -/
theorem run_replicate {count : Nat}
    (h : run perform (List.replicate count who) config = some last) :
    last.thread (!who) = config.thread (!who) ∧
      ((config.thread who).alone perform).run config.state =
        ((last.thread who).alone perform).run last.state := by
  induction count generalizing config with
  | zero =>
      rw [List.replicate_zero, run, Option.some.injEq] at h
      rw [h]
      exact ⟨rfl, rfl⟩
  | succ count ih =>
      rw [List.replicate_succ, run] at h
      obtain ⟨next, hnext, hrest⟩ := Option.bind_eq_some_iff.1 h
      obtain ⟨hstep, hother⟩ := turn_eq_some hnext
      obtain ⟨hsame, halone⟩ := ih hrest
      exact ⟨hsame.trans hother, (Thread.alone_of_step hstep).trans halone⟩

/-- After one thread has ended only the other one gets turns. -/
theorem schedule_eq_replicate {schedule : List Bool} (hended : (config.thread who).Ended)
    (h : run perform schedule config = some last) :
    schedule = List.replicate schedule.length (!who) := by
  induction schedule generalizing config with
  | nil => rfl
  | cons turned schedule ih =>
      obtain ⟨next, hnext, hrest⟩ := Option.bind_eq_some_iff.1 h
      obtain ⟨hstep, hother⟩ := turn_eq_some hnext
      have hturned : turned = !who := by
        refine Bool.eq_not.2 fun heq => ?_
        rw [heq, hended.step_eq_none] at hstep
        cases hstep
      rw [hturned, Bool.not_not] at hother
      have hsame := ih (hother ▸ hended) hrest
      rw [List.length_cons, List.replicate_succ, ← hsame, hturned]

end Config

/-- A schedule begins with turns of one thread, and then the other one has its first turn, if there
is one. -/
theorem exists_first_change (who : Bool) (schedule : List Bool) :
    (∃ count, schedule = List.replicate count who) ∨
      ∃ count rest, schedule = List.replicate count who ++ (!who) :: rest := by
  induction schedule with
  | nil => exact Or.inl ⟨0, rfl⟩
  | cons turned schedule ih =>
      by_cases heq : turned = who
      · subst heq
        rcases ih with ⟨count, hcount⟩ | ⟨count, rest, hrest⟩
        · exact Or.inl ⟨count + 1, by rw [List.replicate_succ, ← hcount]⟩
        · exact Or.inr ⟨count + 1, rest, by rw [List.replicate_succ, List.cons_append, ← hrest]⟩
      · exact Or.inr ⟨0, schedule, by rw [List.replicate_zero, List.nil_append, Bool.eq_not.2 heq]⟩

end Threads
