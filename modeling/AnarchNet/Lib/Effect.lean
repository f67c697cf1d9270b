import Mathlib.Order.Defs.Unbundled

/-!
# Programs with a state and exceptions

`EStateM ε σ` is the monad of programs that read and change a state and may throw; a throw keeps
the changes made before it. `Preserves R m` says that every run of `m`, whether it returns or
throws, relates the state before to the state after. For a reflexive and transitive `R` the
property is compositional, so it holds of a program as soon as it holds of its calls.
-/

namespace EStateM

variable {ε σ α β : Type}

/-- The state in which a run ends, by returning or by throwing. -/
def Result.state : Result ε σ α → σ
  | .ok _ state => state
  | .error _ state => state

@[simp] theorem Result.state_ok (value : α) (state : σ) :
    (Result.ok value state : Result ε σ α).state = state := rfl

@[simp] theorem Result.state_error (fault : ε) (state : σ) :
    (Result.error fault state : Result ε σ α).state = state := rfl

/-- The run returned true. -/
def Result.isTrue : Result ε σ Bool → Bool
  | .ok value _ => value
  | .error _ _ => false

/-- A run that returned true ended in some state. -/
theorem Result.exists_of_isTrue {result : Result ε σ Bool} (h : result.isTrue = true) :
    ∃ last, result = .ok true last := by
  cases result with
  | ok value state => exact ⟨state, by rw [show value = true from h]⟩
  | error fault state => simp [isTrue] at h

/-- What a run returned. -/
def Result.value? : Result ε σ α → Option α
  | .ok value _ => some value
  | .error _ _ => none

/-- A run that returned a value ended in some state. -/
theorem Result.exists_of_value? {result : Result ε σ α} {value : α}
    (h : result.value? = some value) : ∃ last, result = .ok value last := by
  cases result with
  | ok found state =>
      obtain rfl : found = value := by simpa [value?] using h
      exact ⟨state, rfl⟩
  | error fault state => simp [value?] at h

/-- Throwing ends the run in the state it is in. -/
@[simp] theorem run_throw_eq (fault : ε) (state : σ) :
    (throw fault : EStateM ε σ α).run state = .error fault state := rfl

/-- Mapping over a program changes what it returns. -/
@[simp] theorem run_map_eq (f : α → β) (program : EStateM ε σ α) (state : σ) :
    (f <$> program).run state =
      match program.run state with
      | .ok value after => .ok (f value) after
      | .error fault after => .error fault after := by
  change EStateM.map f program state = _
  unfold EStateM.map EStateM.run
  cases program state <;> rfl

/-- A sequence that returns has two parts that return. -/
theorem run_bind_eq_ok {first : EStateM ε σ α} {next : α → EStateM ε σ β} {state last : σ}
    {result : β} (h : (first >>= next).run state = .ok result last) :
    ∃ value middle, first.run state = .ok value middle ∧
      (next value).run middle = .ok result last := by
  rw [run_bind] at h
  cases hfirst : first.run state with
  | ok value middle =>
      rw [hfirst] at h
      exact ⟨value, middle, rfl, h⟩
  | error fault middle => simp [hfirst] at h

/-- A sequence ends with a result exactly if its second part does so after the first. -/
theorem exists_run_bind_iff {first : EStateM ε σ α} {next : α → EStateM ε σ β} {state : σ}
    {result : β} : (∃ last, (first >>= next).run state = .ok result last) ↔
      ∃ value middle, first.run state = .ok value middle ∧
        ∃ last, (next value).run middle = .ok result last := by
  constructor
  · rintro ⟨last, h⟩
    obtain ⟨value, middle, hfirst, hnext⟩ := run_bind_eq_ok h
    exact ⟨value, middle, hfirst, last, hnext⟩
  · rintro ⟨value, middle, hfirst, last, hnext⟩
    exact ⟨last, by rw [run_bind, hfirst]; exact hnext⟩

/-- A choice between programs runs the chosen one. -/
theorem run_ite (c : Prop) [Decidable c] (yes no : EStateM ε σ α) (state : σ) :
    (if c then yes else no).run state = if c then yes.run state else no.run state := by
  split <;> rfl

/-- A handler runs in the state in which the exception was thrown. -/
theorem run_tryCatch_eq (body : EStateM ε σ α) (handler : ε → EStateM ε σ α) (state : σ) :
    (tryCatch body handler).run state =
      match body.run state with
      | .ok value after => .ok value after
      | .error fault after => (handler fault).run after := by
  change EStateM.tryCatch body handler state = _
  unfold EStateM.tryCatch EStateM.run
  cases body state <;> rfl

/-- A handler that changes nothing does not matter for the state. -/
theorem state_tryCatch {body : EStateM ε σ α} {handler : ε → EStateM ε σ α}
    (h : ∀ fault state, ((handler fault).run state).state = state) (state : σ) :
    ((tryCatch body handler).run state).state = (body.run state).state := by
  rw [run_tryCatch_eq]
  cases body.run state with
  | ok value after => rfl
  | error fault after => exact h fault after

/-- Both of two programs, one after the other, return true. -/
def both (first second : EStateM ε σ Bool) : EStateM ε σ Bool := do
  let left ← first
  let right ← second
  return left && right

/-- Two programs that return true one after the other. -/
theorem run_both_eq_true {first second : EStateM ε σ Bool} {state last : σ}
    (h : (both first second).run state = .ok true last) :
    ∃ middle, first.run state = .ok true middle ∧ second.run middle = .ok true last := by
  simp only [both, run_bind] at h
  cases hfirst : first.run state with
  | error fault middle => simp [hfirst] at h
  | ok left middle =>
      simp only [hfirst] at h
      cases hsecond : second.run middle with
      | error fault after => simp [hsecond] at h
      | ok right after =>
          simp only [hsecond, run_pure, Result.ok.injEq, Bool.and_eq_true] at h
          obtain ⟨⟨rfl, rfl⟩, rfl⟩ := h
          exact ⟨middle, rfl, hsecond⟩

/-- A test of the state. -/
def check (test : σ → Bool) : EStateM ε σ Bool := do
  let state ← get
  return test state

/-- A test that returns true holds of the state and leaves it alone. -/
theorem run_check_eq_true {test : σ → Bool} {state last : σ}
    (h : (check test : EStateM ε σ Bool).run state = .ok true last) :
    test state = true ∧ last = state := by
  change (Result.ok (test state) state : Result ε σ Bool) = .ok true last at h
  rw [Result.ok.injEq] at h
  exact ⟨h.1, h.2.symm⟩

/-- The run returns. -/
abbrev Ends (program : EStateM ε σ α) (state : σ) : Prop :=
  ∃ value last, program.run state = .ok value last

/-- A sequence returns if its second part returns after the first one. -/
theorem ends_bind_iff {first : EStateM ε σ α} {next : α → EStateM ε σ β} {state middle : σ}
    {value : α} (h : first.run state = .ok value middle) :
    Ends (first >>= next) state ↔ Ends (next value) middle := by
  simp [Ends, run_bind, h]

/-- A sequence whose first part throws does not return. -/
theorem not_ends_bind {first : EStateM ε σ α} {next : α → EStateM ε σ β} {state last : σ} {fault : ε}
    (h : first.run state = .error fault last) : ¬ Ends (first >>= next) state := by
  simp [Ends, run_bind, h]

/-- A sequence whose second part always returns, returns if its first part does. -/
theorem ends_bind_of_forall {first : EStateM ε σ α} {next : α → EStateM ε σ β}
    (h : ∀ value state, Ends (next value) state) (state : σ) :
    Ends (first >>= next) state ↔ Ends first state := by
  constructor
  · rintro ⟨result, last, hrun⟩
    obtain ⟨value, middle, hfirst, -⟩ := run_bind_eq_ok hrun
    exact ⟨value, middle, hfirst⟩
  · rintro ⟨value, middle, hfirst⟩
    exact (ends_bind_iff hfirst).2 (h value middle)

/-- Every value that the program returns has the property. -/
def Returns (P : α → Prop) (program : EStateM ε σ α) : Prop :=
  ∀ state value last, program.run state = .ok value last → P value

namespace Returns

variable {P : α → Prop} {Q : β → Prop}

/-- Returning a value with the property. -/
theorem pure {value : α} (h : P value) : Returns P (Pure.pure value : EStateM ε σ α) := by
  intro state returned last hrun
  rw [run_pure, Result.ok.injEq] at hrun
  exact hrun.1 ▸ h

/-- A sequence returns what its second part returns after a value of the first one. -/
theorem bind {first : EStateM ε σ α} {next : α → EStateM ε σ β} (hfirst : Returns P first)
    (hnext : ∀ value, P value → Returns Q (next value)) : Returns Q (first >>= next) := by
  intro state result last hrun
  obtain ⟨value, middle, hvalue, hresult⟩ := run_bind_eq_ok hrun
  exact hnext value (hfirst state value middle hvalue) middle result last hresult

/-- A sequence returns what its second part returns, whatever the first one does. -/
theorem seq {first : EStateM ε σ α} {next : α → EStateM ε σ β}
    (hnext : ∀ value, Returns Q (next value)) : Returns Q (first >>= next) := by
  intro state result last hrun
  obtain ⟨value, middle, -, hresult⟩ := run_bind_eq_ok hrun
  exact hnext value middle result last hresult

/-- A choice returns what both branches return. -/
theorem ite {c : Prop} [Decidable c] {yes no : EStateM ε σ α} (hyes : Returns P yes)
    (hno : Returns P no) : Returns P (if c then yes else no) := by
  split
  · exact hyes
  · exact hno

/-- A throw returns nothing. -/
theorem throw (fault : ε) : Returns P (throw fault : EStateM ε σ α) := by
  intro state value last hrun
  rw [run_throw_eq] at hrun
  cases hrun

/-- A program with a handler returns what both return. -/
theorem tryCatch {body : EStateM ε σ α} {handler : ε → EStateM ε σ α} (hbody : Returns P body)
    (hhandler : ∀ fault, Returns P (handler fault)) :
    Returns P (MonadExcept.tryCatch body handler) := by
  intro state value last hrun
  rw [show (MonadExcept.tryCatch body handler).run state = _ from
    run_tryCatch_eq body handler state] at hrun
  cases hresult : body.run state with
  | ok returned after =>
      rw [hresult] at hrun
      exact hbody state value last (hresult.trans hrun)
  | error fault after =>
      rw [hresult] at hrun
      exact hhandler fault after value last hrun

end Returns

/-- Every exception that the program throws has the property. -/
def Throws (P : ε → Prop) (program : EStateM ε σ α) : Prop :=
  ∀ state fault last, program.run state = .error fault last → P fault

namespace Throws

variable {P : ε → Prop}

/-- Returning throws nothing. -/
theorem pure (value : α) : Throws P (Pure.pure value : EStateM ε σ α) :=
  fun _ _ _ hrun => by cases hrun

/-- Throwing an exception with the property. -/
theorem throw {fault : ε} (h : P fault) : Throws P (MonadExcept.throw fault : EStateM ε σ α) :=
  fun _ _ _ hrun => (Result.error.inj hrun).1 ▸ h

/-- A program that always returns throws nothing. -/
theorem of_ends {program : EStateM ε σ α} (h : ∀ state, Ends program state) :
    Throws P program := by
  intro state fault last hrun
  obtain ⟨value, after, hok⟩ := h state
  rw [hok] at hrun
  cases hrun

/-- A sequence throws what its parts throw. -/
theorem bind {first : EStateM ε σ α} {next : α → EStateM ε σ β} (hfirst : Throws P first)
    (hnext : ∀ value, Throws P (next value)) : Throws P (first >>= next) := by
  intro state fault last hrun
  rw [run_bind] at hrun
  cases hvalue : first.run state with
  | ok value middle =>
      rw [hvalue] at hrun
      exact hnext value middle fault last hrun
  | error thrown middle =>
      rw [hvalue] at hrun
      exact (Result.error.inj hrun).1 ▸ hfirst state thrown middle hvalue

/-- A choice throws what both branches throw. -/
theorem ite {c : Prop} [Decidable c] {yes no : EStateM ε σ α} (hyes : Throws P yes)
    (hno : Throws P no) : Throws P (if c then yes else no) := by
  split
  · exact hyes
  · exact hno

/-- A handler throws what it throws for the exceptions of the body. -/
theorem tryCatch {Q : ε → Prop} {body : EStateM ε σ α} {handler : ε → EStateM ε σ α}
    (hbody : Throws P body) (hhandler : ∀ fault, P fault → Throws Q (handler fault)) :
    Throws Q (MonadExcept.tryCatch body handler) := by
  intro state fault last hrun
  rw [show (MonadExcept.tryCatch body handler).run state = _ from
    run_tryCatch_eq body handler state] at hrun
  cases hresult : body.run state with
  | ok value after =>
      rw [hresult] at hrun
      cases hrun
  | error thrown after =>
      rw [hresult] at hrun
      exact hhandler thrown (hbody state thrown after hresult) after fault last hrun

/-- A program that throws nothing returns. -/
theorem ends {program : EStateM ε σ α} (h : Throws (fun _ => False) program) (state : σ) :
    Ends program state := by
  cases hrun : program.run state with
  | ok value last => exact ⟨value, last, hrun⟩
  | error fault last => exact absurd hrun fun hrun => h state fault last hrun

end Throws

/-- What the program returns does not depend on the state. -/
def Steady (program : EStateM ε σ α) : Prop :=
  ∀ state other, (program.run state).value? = (program.run other).value?

namespace Steady

/-- Returning a value. -/
theorem pure (value : α) : Steady (Pure.pure value : EStateM ε σ α) := fun _ _ => rfl

/-- Throwing an exception. -/
theorem throw (fault : ε) : Steady (MonadExcept.throw fault : EStateM ε σ α) := fun _ _ => rfl

/-- A sequence of programs that do not depend on the state. -/
theorem bind {first : EStateM ε σ α} {next : α → EStateM ε σ β} (hfirst : Steady first)
    (hnext : ∀ value, Steady (next value)) : Steady (first >>= next) := by
  intro state other
  have h := hfirst state other
  rw [run_bind, run_bind]
  cases hleft : first.run state with
  | ok value middle =>
      rw [hleft] at h
      obtain ⟨last, hright⟩ := Result.exists_of_value? h.symm
      rw [hright]
      exact hnext value middle last
  | error fault middle =>
      rw [hleft] at h
      cases hright : first.run other with
      | ok value last => simp [hright, Result.value?] at h
      | error thrown last => rfl

/-- A choice between programs that do not depend on the state. -/
theorem ite {c : Prop} [Decidable c] {yes no : EStateM ε σ α} (hyes : Steady yes)
    (hno : Steady no) : Steady (if c then yes else no) := by
  split
  · exact hyes
  · exact hno

end Steady

/-- Every run relates its first state to its last one. -/
def Preserves (R : σ → σ → Prop) (program : EStateM ε σ α) : Prop :=
  ∀ state, R state (program.run state).state

namespace Preserves

variable {R : σ → σ → Prop}

/-- A run that returns relates its states. -/
theorem ok {program : EStateM ε σ α} (h : Preserves R program) {state after : σ} {value : α}
    (hrun : program.run state = .ok value after) : R state after := by
  have := h state
  rwa [hrun] at this

/-- A weaker relation. -/
theorem imp {weaker : σ → σ → Prop} {program : EStateM ε σ α} (h : Preserves R program)
    (himp : ∀ before after, R before after → weaker before after) : Preserves weaker program :=
  fun state => himp _ _ (h state)

/-- A program that leaves the state alone. -/
theorem of_eq [Std.Refl R] {program : EStateM ε σ α} (h : Preserves Eq program) :
    Preserves R program := h.imp fun _ _ heq => heq ▸ refl_of R _

/-- Returning changes nothing. -/
theorem pure [Std.Refl R] (value : α) : Preserves R (Pure.pure value : EStateM ε σ α) :=
  fun state => refl_of R state

/-- Throwing changes nothing. -/
theorem throw [Std.Refl R] (fault : ε) : Preserves R (MonadExcept.throw fault : EStateM ε σ α) :=
  fun state => refl_of R state

/-- Sequencing composes the relation. -/
theorem bind [IsTrans σ R] {first : EStateM ε σ α} {next : α → EStateM ε σ β}
    (hfirst : Preserves R first) (hnext : ∀ value, Preserves R (next value)) :
    Preserves R (first >>= next) := by
  intro state
  have h := hfirst state
  rw [run_bind]
  cases hrun : first.run state with
  | ok value after =>
      rw [hrun] at h
      exact trans_of R h (hnext value after)
  | error fault after =>
      rw [hrun] at h
      exact h

/-- Sequencing composes the relation when the second part is only reached with certain values. -/
theorem bind_of_returns [IsTrans σ R] {P : α → Prop} {first : EStateM ε σ α}
    {next : α → EStateM ε σ β} (hfirst : Preserves R first) (hvalue : Returns P first)
    (hnext : ∀ value, P value → Preserves R (next value)) : Preserves R (first >>= next) := by
  intro state
  have h := hfirst state
  rw [run_bind]
  cases hrun : first.run state with
  | ok value after =>
      rw [hrun] at h
      exact trans_of R h (hnext value (hvalue state value after hrun) after)
  | error fault after =>
      rw [hrun] at h
      exact h

/-- A choice preserves what both branches preserve. -/
theorem ite {c : Prop} [Decidable c] {yes no : EStateM ε σ α} (hyes : c → Preserves R yes)
    (hno : ¬ c → Preserves R no) : Preserves R (if c then yes else no) := by
  split
  · exact hyes ‹_›
  · exact hno ‹_›

/-- Catching preserves what the body and the handler preserve. -/
theorem tryCatch [IsTrans σ R] {body : EStateM ε σ α} {handler : ε → EStateM ε σ α}
    (hbody : Preserves R body) (hhandler : ∀ fault, Preserves R (handler fault)) :
    Preserves R (MonadExcept.tryCatch body handler) := by
  intro state
  have h := hbody state
  rw [show (MonadExcept.tryCatch body handler).run state = _ from
    run_tryCatch_eq body handler state]
  cases hrun : body.run state with
  | ok value after =>
      rw [hrun] at h
      exact h
  | error fault after =>
      rw [hrun] at h
      exact trans_of R h (hhandler fault after)

end Preserves

/-- In every state, the program returns a value that has the property, or it throws an exception
that is excused. -/
def Settles (excuse : ε → Prop) (P : α → Prop) (program : EStateM ε σ α) : Prop :=
  ∀ state, (∃ value last, program.run state = .ok value last ∧ P value) ∨
    ∃ fault last, program.run state = .error fault last ∧ excuse fault

/-- In every state, the program returns a value that has the property. -/
abbrev Yields (P : α → Prop) (program : EStateM ε σ α) : Prop := Settles (fun _ => False) P program

namespace Settles

variable {excuse : ε → Prop} {P : α → Prop} {Q : β → Prop}

/-- Returning a value. -/
theorem pure {value : α} (h : P value) : Settles excuse P (Pure.pure value : EStateM ε σ α) :=
  fun state => Or.inl ⟨value, state, rfl, h⟩

/-- Throwing an exception that is excused. -/
theorem throw {fault : ε} (h : excuse fault) :
    Settles excuse P (MonadExcept.throw fault : EStateM ε σ α) :=
  fun state => Or.inr ⟨fault, state, rfl, h⟩

/-- A sequence returns what its second part returns for the values of the first one. -/
theorem bind {first : EStateM ε σ α} {next : α → EStateM ε σ β} (hfirst : Settles excuse P first)
    (hnext : ∀ value, P value → Settles excuse Q (next value)) :
    Settles excuse Q (first >>= next) := by
  intro state
  rcases hfirst state with ⟨value, middle, hrun, hvalue⟩ | ⟨fault, middle, hrun, hfault⟩
  · rw [run_bind, hrun]
    exact hnext value hvalue middle
  · right
    rw [run_bind, hrun]
    exact ⟨fault, middle, rfl, hfault⟩

/-- Less is asked for, or more is excused. -/
theorem imp {more : ε → Prop} {R : α → Prop} {program : EStateM ε σ α}
    (h : Settles excuse P program) (hexcuse : ∀ fault, excuse fault → more fault)
    (himp : ∀ value, P value → R value) : Settles more R program := by
  intro state
  rcases h state with ⟨value, last, hrun, hvalue⟩ | ⟨fault, last, hrun, hfault⟩
  · exact Or.inl ⟨value, last, hrun, himp value hvalue⟩
  · exact Or.inr ⟨fault, last, hrun, hexcuse fault hfault⟩

/-- A fold over a list keeps what every step keeps of the items that are done. -/
theorem foldlM {R : List β → α → Prop} {step : α → β → EStateM ε σ α} {items : List β} {init : α}
    (hinit : R [] init)
    (hstep : ∀ done item rest, done ++ item :: rest = items → ∀ value, R done value →
      Settles excuse (R (done ++ [item])) (step value item)) :
    Settles excuse (R items) (items.foldlM step init) := by
  have hrest : ∀ rest done value, done ++ rest = items → R done value →
      Settles excuse (R items) (rest.foldlM step value) := by
    intro rest
    induction rest with
    | nil =>
        intro done value hitems hvalue
        rw [List.append_nil] at hitems
        rw [List.foldlM_nil, ← hitems]
        exact pure hvalue
    | cons item rest ih =>
        intro done value hitems hvalue
        rw [List.foldlM_cons]
        refine (hstep done item rest hitems value hvalue).bind fun after hafter => ?_
        exact ih (done ++ [item]) after (by rw [List.append_assoc]; exact hitems) hafter
  exact hrest items [] init rfl hinit

end Settles

end EStateM
