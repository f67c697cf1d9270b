import AnarchNet.Lib.Effect

/-!
# Two programs side by side

`Twin R P left right` says that from states related by `R` the two programs end alike: both return,
with values related by `P`, or both throw the same exception, and the states are related again. The
judgement is compositional, so it holds of two programs as soon as it holds of their calls.
-/

namespace EStateM

variable {ε σ τ α β γ δ : Type} {R : σ → τ → Prop}

/-- Two runs ended alike. -/
inductive Result.Alike (R : σ → τ → Prop) (P : α → β → Prop) :
    Result ε σ α → Result ε τ β → Prop where
  | ok {left : α} {right : β} {one : σ} {two : τ} (hvalues : P left right) (hstates : R one two) :
      Result.Alike R P (.ok left one) (.ok right two)
  | error {fault : ε} {one : σ} {two : τ} (hstates : R one two) :
      Result.Alike R P (.error fault one) (.error fault two)

/-- From related states, the two programs end alike. -/
def Twin (R : σ → τ → Prop) (P : α → β → Prop) (left : EStateM ε σ α) (right : EStateM ε τ β) :
    Prop :=
  ∀ one two, R one two → Result.Alike R P (left.run one) (right.run two)

namespace Twin

variable {P : α → β → Prop} {Q : γ → δ → Prop}

/-- Returning related values. -/
theorem pure {left : α} {right : β} (h : P left right) :
    Twin R P (Pure.pure left : EStateM ε σ α) (Pure.pure right) :=
  fun _ _ hstates => .ok h hstates

/-- Throwing the same exception. -/
theorem throw (fault : ε) :
    Twin R P (MonadExcept.throw fault : EStateM ε σ α) (MonadExcept.throw fault) :=
  fun _ _ hstates => .error hstates

/-- The second parts of two sequences start from related values. -/
theorem bind {left : EStateM ε σ α} {right : EStateM ε τ β} {nextLeft : α → EStateM ε σ γ}
    {nextRight : β → EStateM ε τ δ} (hfirst : Twin R P left right)
    (hnext : ∀ value other, P value other → Twin R Q (nextLeft value) (nextRight other)) :
    Twin R Q (left >>= nextLeft) (right >>= nextRight) := by
  intro one two hstates
  have h := hfirst one two hstates
  rw [run_bind, run_bind]
  generalize left.run one = first at h ⊢
  generalize right.run two = second at h ⊢
  cases h with
  | ok hvalues hafter => exact hnext _ _ hvalues _ _ hafter
  | error hafter => exact .error hafter

/-- Two sequences whose first parts return the same value. -/
theorem bind_eq {left : EStateM ε σ α} {right : EStateM ε τ α} {nextLeft : α → EStateM ε σ γ}
    {nextRight : α → EStateM ε τ δ} (hfirst : Twin R Eq left right)
    (hnext : ∀ value, Twin R Q (nextLeft value) (nextRight value)) :
    Twin R Q (left >>= nextLeft) (right >>= nextRight) := by
  refine bind hfirst fun value other heq => ?_
  subst heq
  exact hnext value

/-- A choice made the same way. -/
theorem ite {c : Prop} [Decidable c] {yes no : EStateM ε σ α} {other otherwise : EStateM ε τ β}
    (hyes : c → Twin R P yes other) (hno : ¬ c → Twin R P no otherwise) :
    Twin R P (if c then yes else no) (if c then other else otherwise) := by
  split
  · exact hyes ‹_›
  · exact hno ‹_›

/-- Two programs with handlers. -/
theorem tryCatch {left : EStateM ε σ α} {right : EStateM ε τ β}
    {handler : ε → EStateM ε σ α} {other : ε → EStateM ε τ β} (hbody : Twin R P left right)
    (hhandler : ∀ fault, Twin R P (handler fault) (other fault)) :
    Twin R P (MonadExcept.tryCatch left handler) (MonadExcept.tryCatch right other) := by
  intro one two hstates
  have h := hbody one two hstates
  rw [show (MonadExcept.tryCatch left handler).run one = _ from run_tryCatch_eq left handler one,
    show (MonadExcept.tryCatch right other).run two = _ from run_tryCatch_eq right other two]
  generalize left.run one = first at h ⊢
  generalize right.run two = second at h ⊢
  cases h with
  | ok hvalues hafter => exact .ok hvalues hafter
  | error hafter => exact hhandler _ _ _ hafter

/-- A weaker relation of the values. -/
theorem imp {weaker : α → β → Prop} {left : EStateM ε σ α} {right : EStateM ε τ β}
    (h : Twin R P left right) (himp : ∀ value other, P value other → weaker value other) :
    Twin R weaker left right := by
  intro one two hstates
  have h := h one two hstates
  generalize left.run one = first at h ⊢
  generalize right.run two = second at h ⊢
  cases h with
  | ok hvalues hafter => exact .ok (himp _ _ hvalues) hafter
  | error hafter => exact .error hafter

/-- Something is made of the value of the left program. -/
theorem map_left {f : α → γ} {known : γ → β → Prop} {left : EStateM ε σ α} {right : EStateM ε τ β}
    (h : Twin R P left right) (hmap : ∀ value other, P value other → known (f value) other) :
    Twin R known (left >>= fun value => Pure.pure (f value)) right := by
  intro one two hstates
  have h := h one two hstates
  rw [run_bind]
  generalize left.run one = first at h ⊢
  generalize right.run two = second at h ⊢
  cases h with
  | ok hvalues hafter => exact .ok (hmap _ _ hvalues) hafter
  | error hafter => exact .error hafter

/-- Something is made of the value of the right program. -/
theorem map_right {f : β → δ} {known : α → δ → Prop} {left : EStateM ε σ α}
    {right : EStateM ε τ β} (h : Twin R P left right)
    (hmap : ∀ value other, P value other → known value (f other)) :
    Twin R known left (right >>= fun value => Pure.pure (f value)) := by
  intro one two hstates
  have h := h one two hstates
  rw [run_bind]
  generalize left.run one = first at h ⊢
  generalize right.run two = second at h ⊢
  cases h with
  | ok hvalues hafter => exact .ok (hmap _ _ hvalues) hafter
  | error hafter => exact .error hafter

/-- What the left program is known to return may be used. -/
theorem and_returns {known : α → Prop} {left : EStateM ε σ α} {right : EStateM ε τ β}
    (h : Twin R P left right) (hknown : Returns known left) :
    Twin R (fun value other => P value other ∧ known value) left right := by
  intro one two hstates
  have h := h one two hstates
  have hvalue := hknown one
  generalize left.run one = first at h hvalue ⊢
  generalize right.run two = second at h ⊢
  cases h with
  | ok hvalues hafter => exact .ok ⟨hvalues, hvalue _ _ rfl⟩ hafter
  | error hafter => exact .error hafter

end Twin

end EStateM
