import Mathlib.Data.List.Basic

/-!
# Machines that read a stream

A machine reads one symbol at a time, writes some symbols for it and changes its state, or it stops
where it has no meaning. A stream is given to such a machine in blocks, and what it writes for one
block has to fit into a buffer. Where every block fits, the blocks do not matter.
-/

/-- A machine that reads symbols and writes symbols. -/
structure Transducer (σ α β : Type) where
  step : σ → α → Option (List β × σ)

namespace Transducer

variable {σ α β : Type} (machine : Transducer σ α β)

/-- The symbols written for a text, and the state after it. -/
def run (state : σ) : List α → Option (List β × σ)
  | [] => some ([], state)
  | symbol :: rest => do
      let (written, next) ← machine.step state symbol
      let (others, last) ← run next rest
      return (written ++ others, last)

/-- A text that is read in blocks of a size. The buffer has room for so many symbols of one block.
The loop ends after the first block that is not full. -/
def stream (size room : Nat) (state : σ) (text : List α) : Option (List β × σ) := do
  let (written, next) ← machine.run state (text.take size)
  if room < written.length then none
  else if _h : 0 < size ∧ size ≤ text.length then
    let (others, last) ← stream size room next (text.drop size)
    return (written ++ others, last)
  else return (written, next)
  termination_by text.length
  decreasing_by
    rw [List.length_drop]
    omega

section Runs

variable {machine} {state next last : σ} {symbol : α} {text rest : List α} {written others : List β}

@[simp] theorem run_nil (state : σ) : machine.run state [] = some ([], state) := rfl

/-- A step and what follows it. -/
theorem run_cons (h : machine.step state symbol = some (written, next)) (rest : List α) :
    machine.run state (symbol :: rest) =
      (machine.run next rest).map fun following => (written ++ following.1, following.2) := by
  rw [run, h]
  simp only [Option.bind_eq_bind, Option.bind_some]
  cases machine.run next rest <;> rfl

/-- A step that stops. -/
theorem run_cons_none (h : machine.step state symbol = none) (rest : List α) :
    machine.run state (symbol :: rest) = none := by
  rw [run, h]
  rfl

/-- A run on two texts, one after the other. -/
theorem run_append (state : σ) (text rest : List α) : machine.run state (text ++ rest) =
    (machine.run state text).bind fun first =>
      (machine.run first.2 rest).map fun second => (first.1 ++ second.1, second.2) := by
  induction text generalizing state with
  | nil => cases h : machine.run state rest <;> simp [h]
  | cons symbol text ih =>
      rw [List.cons_append]
      cases hstep : machine.step state symbol with
      | none => rw [run_cons_none hstep, run_cons_none hstep, Option.bind_none]
      | some pair =>
          rw [run_cons hstep, run_cons hstep, ih]
          cases machine.run pair.2 text with
          | none => rfl
          | some first =>
              cases hrest : machine.run first.2 rest <;> simp [hrest]

/-- A run that ends, and then another. -/
theorem run_append_of_eq_some (h : machine.run state text = some (written, next)) (rest : List α) :
    machine.run state (text ++ rest) =
      (machine.run next rest).map fun second => (written ++ second.1, second.2) := by
  rw [run_append, h, Option.bind_some]

/-- How much a run writes: every step pays for what it writes with the price of its symbol, and may
save for a later step or spend what is saved. -/
theorem weight_run_le {weight price : Nat} (saved : σ → Nat)
    (hpay : ∀ state symbol written next, machine.step state symbol = some (written, next) →
      weight * written.length + saved next ≤ price + saved state)
    (h : machine.run state text = some (written, last)) :
    weight * written.length + saved last ≤ price * text.length + saved state := by
  induction text generalizing state written with
  | nil =>
      obtain ⟨rfl, rfl⟩ := Prod.mk.inj (Option.some.inj h)
      simp
  | cons symbol text ih =>
      cases hfirst : machine.step state symbol with
      | none => simp [run_cons_none hfirst] at h
      | some pair =>
          rw [run_cons hfirst, Option.map_eq_some_iff] at h
          obtain ⟨following, hrun, heq⟩ := h
          obtain ⟨rfl, rfl⟩ := Prod.mk.inj heq
          have hhead := hpay state symbol pair.1 pair.2 hfirst
          have htail := ih hrun
          rw [List.length_append, List.length_cons, Nat.mul_add, Nat.mul_add]
          omega

/-- A machine that stops at no symbol of the text reaches its end. -/
theorem isSome_run_iff {stops : α → Prop}
    (hstep : ∀ state symbol, machine.step state symbol = none ↔ stops symbol) (state : σ)
    (text : List α) : (machine.run state text).isSome ↔ ∀ symbol ∈ text, ¬ stops symbol := by
  induction text generalizing state with
  | nil => simp
  | cons symbol text ih =>
      rw [List.forall_mem_cons]
      cases hfirst : machine.step state symbol with
      | none => simp [run_cons_none hfirst, (hstep state symbol).1 hfirst]
      | some pair =>
          have hgoes : ¬ stops symbol := fun hstops => by
            simp [(hstep state symbol).2 hstops] at hfirst
          rw [run_cons hfirst, Option.isSome_map, ih]
          simp [hgoes]

/-- A machine that goes on without a word at some symbols does not see them. -/
theorem run_filter {sees : α → Bool} (hblind : ∀ state, ∀ symbol ∈ text, sees symbol = false →
      machine.step state symbol = some ([], state)) (state : σ) :
    machine.run state (text.filter sees) = machine.run state text := by
  induction text generalizing state with
  | nil => rfl
  | cons symbol text ih =>
      have hrest := ih fun state other hother => hblind state other (List.mem_cons_of_mem _ hother)
      cases hsees : sees symbol with
      | false =>
          rw [List.filter_cons_of_neg (by simp [hsees]), hrest,
            run_cons (hblind state symbol List.mem_cons_self hsees)]
          simp
      | true =>
          rw [List.filter_cons_of_pos hsees]
          cases hfirst : machine.step state symbol with
          | none => rw [run_cons_none hfirst, run_cons_none hfirst]
          | some pair => rw [run_cons hfirst, run_cons hfirst, hrest]

/-- **Blocks do not matter.** A stream whose blocks fit the buffer is read like one text. -/
theorem stream_eq_run {size room : Nat} (hsize : 0 < size)
    (hfits : ∀ state block written last, block.length ≤ size →
      machine.run state block = some (written, last) → written.length ≤ room)
    (state : σ) (text : List α) : machine.stream size room state text = machine.run state text := by
  induction hlength : text.length using Nat.strongRecOn generalizing state text with
  | ind length ih =>
      subst hlength
      rw [stream]
      conv_rhs => rw [← List.take_append_drop size text, run_append]
      cases hrun : machine.run state (text.take size) with
      | none => rfl
      | some first =>
          have hroom : ¬ room < first.1.length :=
            Nat.not_lt.2
              (hfits state (text.take size) first.1 first.2 (List.length_take_le size text) hrun)
          rw [Option.bind_some]
          simp only [Option.bind_eq_bind, Option.bind_some, if_neg hroom]
          by_cases hfull : 0 < size ∧ size ≤ text.length
          · rw [dif_pos hfull, ih (text.drop size).length (by simp; omega) first.2 _ rfl]
            cases machine.run first.2 (text.drop size) <;> rfl
          · -- the last block is the rest of the text
            rw [dif_neg hfull, List.drop_eq_nil_of_le (by omega)]
            simp

end Runs

end Transducer
