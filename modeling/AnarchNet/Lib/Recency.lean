import Mathlib.Data.List.DropRight
import Mathlib.Data.List.Nodup

/-!
# Keys by their last access

A sequence of accesses to keys orders the keys by their last access. A store with room for some
number of keys that moves a key to one end when it is accessed, and drops the key at the other end
when a new one finds no room, holds exactly the first keys of this order.
-/

namespace Recency

variable {K : Type} [DecidableEq K]

/-- The keys of a sequence of accesses, the one accessed last first. -/
def recent (accesses : List K) : List K :=
  accesses.foldl (fun keys key => key :: keys.filter (· ≠ key)) []

/-- Nothing was accessed yet. -/
@[simp] theorem recent_nil : recent ([] : List K) = [] := rfl

/-- A key that is accessed comes first. -/
theorem recent_snoc (accesses : List K) (key : K) :
    recent (accesses ++ [key]) = key :: (recent accesses).filter (· ≠ key) := by
  rw [recent, List.foldl_append]
  rfl

/-- The keys are those that were accessed. -/
@[simp] theorem mem_recent {accesses : List K} {key : K} :
    key ∈ recent accesses ↔ key ∈ accesses := by
  induction accesses using List.reverseRecOn with
  | nil => simp
  | append_singleton accesses last ih =>
      by_cases heq : key = last <;> simp [recent_snoc, ih, heq]

/-- Each key occurs once. -/
theorem nodup_recent (accesses : List K) : (recent accesses).Nodup := by
  induction accesses using List.reverseRecOn with
  | nil => simp
  | append_singleton accesses last ih =>
      rw [recent_snoc, List.nodup_cons]
      exact ⟨by simp, ih.filter _⟩

/-- Later accesses come before all others. -/
theorem recent_append (earlier later : List K) :
    recent (earlier ++ later) = recent later ++ (recent earlier).filter (· ∉ later) := by
  induction later using List.reverseRecOn with
  | nil => simp
  | append_singleton later last ih =>
      rw [← List.append_assoc, recent_snoc, recent_snoc, ih, List.filter_append, List.filter_filter,
        List.cons_append]
      congr 2
      refine List.filter_congr fun key _ => ?_
      by_cases hlast : key = last <;> simp [hlast]

/-- The keys of a store after an access, the one accessed last at the end. -/
def touch (capacity : Nat) (keys : List K) (key : K) : List K :=
  if key ∈ keys then keys.filter (· ≠ key) ++ [key]
  else if keys.length = capacity then keys.tail ++ [key]
  else keys ++ [key]

/-- Dropping a key behind the first ones leaves the first ones alone. -/
theorem take_filter_of_not_mem {keys : List K} {key : K} {count : Nat}
    (h : key ∉ keys.take count) : (keys.filter (· ≠ key)).take count = keys.take count := by
  induction keys generalizing count with
  | nil => simp
  | cons first keys ih =>
      cases count with
      | zero => simp
      | succ count =>
          rw [List.take_succ_cons, List.mem_cons, not_or] at h
          rw [List.filter_cons_of_pos (by simpa using Ne.symm h.1), List.take_succ_cons,
            List.take_succ_cons, ih h.2]

/-- Dropping one of the first keys makes room for one more of the others. -/
theorem take_filter_of_mem {keys : List K} {key : K} {count : Nat} (hnodup : keys.Nodup)
    (h : key ∈ keys.take (count + 1)) :
    (keys.filter (· ≠ key)).take count = (keys.take (count + 1)).filter (· ≠ key) := by
  induction keys generalizing count with
  | nil => simp
  | cons first keys ih =>
      obtain ⟨hfirst, hrest⟩ := List.nodup_cons.1 hnodup
      rw [List.take_succ_cons] at h ⊢
      by_cases heq : first = key
      · subst heq
        have hnot : ∀ other ∈ keys, decide (other ≠ first) = true := fun other hother => by
          simpa using fun hsame : other = first => hfirst (hsame ▸ hother)
        rw [List.filter_cons_of_neg (by simp), List.filter_cons_of_neg (by simp),
          List.filter_eq_self.2 hnot,
          List.filter_eq_self.2 fun other hother => hnot other (List.mem_of_mem_take hother)]
      · have hmem : key ∈ keys.take count := (List.mem_cons.1 h).resolve_left (Ne.symm heq)
        cases count with
        | zero => simp at hmem
        | succ count =>
            rw [List.filter_cons_of_pos (by simpa using heq),
              List.filter_cons_of_pos (by simpa using heq), List.take_succ_cons,
              ih hrest hmem]

/-- A store that holds the first keys in the order of their last access holds them again after one
more access. -/
theorem touch_recent {capacity : Nat} (hcapacity : 0 < capacity) (accesses : List K) (key : K) :
    touch capacity ((recent accesses).take capacity).reverse key =
      ((recent (accesses ++ [key])).take capacity).reverse := by
  obtain ⟨count, rfl⟩ := Nat.exists_eq_succ_of_ne_zero (Nat.ne_of_gt hcapacity)
  rw [recent_snoc, List.take_succ_cons, List.reverse_cons, touch]
  by_cases hmem : key ∈ (recent accesses).take (count + 1)
  · rw [if_pos (List.mem_reverse.2 hmem), List.filter_reverse,
      take_filter_of_mem (nodup_recent accesses) hmem]
  · have hnot : key ∉ (recent accesses).take count := fun hfront =>
      hmem (List.take_subset_take_left _ (Nat.le_succ count) hfront)
    rw [if_neg fun h => hmem (List.mem_reverse.1 h), take_filter_of_not_mem hnot]
    split
    · rename_i hfull
      rw [List.length_reverse] at hfull
      rw [List.tail_reverse, List.dropLast_eq_take, hfull, List.take_take, Nat.succ_sub_one,
        Nat.min_eq_left (Nat.le_succ count)]
    · rename_i hroom
      rw [List.length_reverse, List.length_take] at hroom
      rw [List.take_of_length_le (by omega), List.take_of_length_le (by omega)]

/-- A key is among the first ones as long as fewer other keys were accessed after it. -/
theorem mem_take_recent {capacity : Nat} {earlier later : List K} {key : K} (hkey : key ∉ later)
    (hlater : (recent later).length < capacity) :
    key ∈ (recent (earlier ++ [key] ++ later)).take capacity := by
  rw [recent_append, recent_snoc, List.filter_cons_of_pos (by simpa using hkey), List.take_append,
    List.mem_append]
  refine Or.inr ?_
  obtain ⟨rest, hrest⟩ := Nat.exists_eq_add_of_lt hlater
  rw [hrest, show (recent later).length + rest + 1 - (recent later).length = rest + 1 by omega,
    List.take_succ_cons]
  exact List.mem_cons_self

end Recency
