import Mathlib.Algebra.BigOperators.Group.Finset.Basic
import Mathlib.Logic.Relation

/-!
# Members that step one at a time

A system of members with a state that they share. A step is an answer that reaches one member: it
changes that member and the shared state. If every answer makes the member and the shared state
smaller, then no run goes on for ever, and a member that always has an answer to come can be run
alone until something happens.
-/

namespace Members

open Relation

/-- The members and the state that they share. -/
structure System (ι μ σ : Type) where
  member : ι → μ
  shared : σ

variable {ι μ σ κ : Type} [DecidableEq ι]

/-- What an answer makes of a member and of the shared state, if the member awaits it. -/
abbrev Answers (κ μ σ : Type) := κ → μ → σ → Option (μ × σ)

variable (answer : Answers κ μ σ)

/-- An answer reaches a member. -/
def Step (system next : System ι μ σ) : Prop :=
  ∃ who choice member shared,
    answer choice (system.member who) system.shared = some (member, shared) ∧
      next = ⟨Function.update system.member who member, shared⟩

/-- No member awaits an answer. -/
def Quiet (system : System ι μ σ) : Prop :=
  ∀ who choice, answer choice (system.member who) system.shared = none

variable {answer}

/-- Answers that make a member and the shared state smaller. -/
def Shrinks (answer : Answers κ μ σ) (size : μ → Nat) (rest : σ → Nat) : Prop :=
  ∀ choice member shared member' shared', answer choice member shared = some (member', shared') →
    size member' + rest shared' < size member + rest shared

/-- A system in which something is awaited makes a step. -/
theorem exists_step_of_not_quiet {system : System ι μ σ} (h : ¬ Quiet answer system) :
    ∃ next, Step answer system next := by
  simp only [Quiet, not_forall] at h
  obtain ⟨who, choice, hanswer⟩ := h
  obtain ⟨⟨member, shared⟩, hsome⟩ := Option.ne_none_iff_exists'.1 hanswer
  exact ⟨_, who, choice, member, shared, hsome, rfl⟩

/-- Every step of shrinking answers makes the whole system smaller, so no run goes on for ever. -/
theorem wellFounded_step [Fintype ι] {size : μ → Nat} {rest : σ → Nat}
    (h : Shrinks answer size rest) :
    WellFounded fun next system : System ι μ σ => Step answer system next := by
  refine Subrelation.wf (r := fun next system : System ι μ σ =>
    ∑ who, size (next.member who) + rest next.shared <
      ∑ who, size (system.member who) + rest system.shared) ?_
    (InvImage.wf (fun system : System ι μ σ => ∑ who, size (system.member who) + rest system.shared)
      Nat.lt_wfRel.wf)
  rintro next system ⟨who, choice, member, shared, hanswer, rfl⟩
  have hshrinks := h _ _ _ _ _ hanswer
  have hold := Finset.add_sum_erase Finset.univ (fun who => size (system.member who))
    (Finset.mem_univ who)
  have hnew := Finset.add_sum_erase Finset.univ
    (fun other => size (Function.update system.member who member other)) (Finset.mem_univ who)
  have hothers : ∑ other ∈ Finset.univ.erase who,
      size (Function.update system.member who member other) =
        ∑ other ∈ Finset.univ.erase who, size (system.member other) :=
    Finset.sum_congr rfl fun other hother => by
      rw [Function.update_of_ne (Finset.ne_of_mem_erase hother)]
  simp only [Function.update_self] at hnew
  dsimp only
  omega

/-- Every run can be gone on with until nothing is awaited. -/
theorem exists_quiet (h : WellFounded fun next system : System ι μ σ => Step answer system next)
    (system : System ι μ σ) :
    ∃ last, ReflTransGen (Step answer) system last ∧ Quiet answer last := by
  induction system using h.induction with
  | _ system ih =>
      by_cases hquiet : Quiet answer system
      · exact ⟨system, .refl, hquiet⟩
      · obtain ⟨next, hstep⟩ := exists_step_of_not_quiet hquiet
        obtain ⟨last, hrun, hlast⟩ := ih next hstep
        exact ⟨last, hrun.head hstep, hlast⟩

/-- A member that always awaits an answer until something happens can be run alone up to it. -/
theorem exists_alone {size : μ → Nat} {rest : σ → Nat} (h : Shrinks answer size rest)
    (Going : μ → σ → Prop) (Happens : σ → σ → Prop)
    (hgoing : ∀ member shared, Going member shared → ∃ choice member' shared',
      answer choice member shared = some (member', shared') ∧
        (Happens shared shared' ∨ Going member' shared'))
    (who : ι) (system : System ι μ σ) (hstart : Going (system.member who) system.shared) :
    ∃ before after, ReflTransGen (Step answer) system before ∧ Step answer before after ∧
      Happens before.shared after.shared ∧
        ∀ other ≠ who, after.member other = system.member other := by
  induction hsize : size (system.member who) + rest system.shared using Nat.strong_induction_on
    generalizing system with
  | _ count ih =>
      obtain ⟨choice, member, shared, hanswer, hnext⟩ := hgoing _ _ hstart
      have hstep : Step answer system ⟨Function.update system.member who member, shared⟩ :=
        ⟨who, choice, member, shared, hanswer, rfl⟩
      rcases hnext with hhappens | hnext
      · exact ⟨system, _, .refl, hstep, hhappens, fun other hother =>
          Function.update_of_ne hother _ _⟩
      · obtain ⟨before, after, hrun, hlast, hhappens, hothers⟩ :=
          ih _ (by simpa [← hsize] using h _ _ _ _ _ hanswer)
            ⟨Function.update system.member who member, shared⟩ (by simpa using hnext) rfl
        exact ⟨before, after, hrun.head hstep, hlast, hhappens, fun other hother =>
          (hothers other hother).trans (Function.update_of_ne hother _ _)⟩

/-- What holds at first and is kept by every step holds after every run. -/
theorem invariant (Inv : System ι μ σ → Prop) {first last : System ι μ σ}
    (hstep : ∀ system next, Inv system → Step answer system next → Inv next)
    (hrun : ReflTransGen (Step answer) first last) (h : Inv first) : Inv last := by
  induction hrun with
  | refl => exact h
  | tail _ hlast ih => exact hstep _ _ ih hlast

end Members
