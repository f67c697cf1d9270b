import AnarchNet.Lib.Search
import AnarchNet.Rpc.Client

/-!
# Counting the marks in the client's data

`occurrences` of `rpc.js` and the branch of the listener that is taken when there are as many marks
as pieces. The loop counts one copy less than `split` makes pieces, so nothing that stands in that
branch is ever run.
-/

namespace AnarchNet.Rpc.Client

open FileSystem Json Delimited Search

section Loop

variable {α : Type} [DecidableEq α]

/-- The loop of `occurrences`, for as many rounds at most. -/
def occurrencesLoop (string substring : List α) : Nat → Nat → Nat → Option Nat
  | 0, _, _ => none
  | rounds + 1, n, pos =>
      match indexOf substring string pos with
      | some found => occurrencesLoop string substring rounds (n + 1) (found + substring.length)
      | none => some n

/-- One copy is counted for every piece but the last one, and no round is made twice from the same
position. -/
theorem occurrencesLoop_eq {string substring : List α} (hne : substring ≠ []) {rounds n pos : Nat}
    (hpos : pos ≤ string.length) (hrounds : string.length - pos < rounds) :
    ∃ count, occurrencesLoop string substring rounds n pos = some (n + count) ∧
      (splitFrom substring [] (string.drop pos)).length = count + 1 := by
  induction rounds generalizing n pos with
  | zero => omega
  | succ rounds ih =>
      rw [occurrencesLoop, indexOf_eq hpos]
      cases hcut : cut substring (string.drop pos) with
      | none => exact ⟨0, rfl, by rw [splitFrom_of_none hne hcut]; rfl⟩
      | some pair =>
          obtain ⟨front, back⟩ := pair
          have hadvance := List.length_pos_of_ne_nil hne
          have hlength := congrArg List.length (eq_of_cut hcut)
          simp only [List.length_drop, List.length_append] at hlength
          obtain ⟨count, hloop, hpieces⟩ :=
            @ih (n + 1) (pos + front.length + substring.length) (by omega) (by omega)
          rw [drop_of_cut hcut] at hpieces
          refine ⟨count + 1, ?_, ?_⟩
          · rw [Option.map_some, Nat.add_comm count, ← Nat.add_assoc]
            exact hloop
          · rw [splitFrom_of_some hne hcut, List.length_cons, hpieces]

/-- A loop that has ended has ended after more rounds as well. -/
theorem occurrencesLoop_mono {string substring : List α} {rounds more n pos count : Nat}
    (h : occurrencesLoop string substring rounds n pos = some count) (hle : rounds ≤ more) :
    occurrencesLoop string substring more n pos = some count := by
  induction rounds generalizing more n pos with
  | zero => cases h
  | succ rounds ih =>
      obtain ⟨more, rfl⟩ : ∃ rest, more = rest + 1 := ⟨more - 1, by omega⟩
      rw [occurrencesLoop] at h ⊢
      cases hfound : indexOf substring string pos with
      | none => rwa [hfound] at h
      | some found =>
          rw [hfound] at h
          exact ih h (by omega)

/-- There are never as many copies as pieces. -/
theorem occurrencesLoop_ne_length_split {substring : List α} (hne : substring ≠ [])
    (string : List α) (rounds : Nat) :
    occurrencesLoop string substring rounds 0 0 ≠ some (Search.split string substring).length := by
  intro h
  obtain ⟨count, hloop, hpieces⟩ :=
    occurrencesLoop_eq hne (n := 0) (Nat.zero_le string.length)
      (Nat.lt_of_lt_of_le (Nat.lt_succ_self _) (Nat.le_max_left (string.length + 1) rounds))
  rw [occurrencesLoop_mono h (Nat.le_max_right _ _), split_eq hne, Option.some.injEq] at hloop
  rw [List.drop_zero] at hpieces
  omega

/-- The empty text is found again and again at the same place. -/
theorem occurrencesLoop_nil (string : List α) (rounds n : Nat) {pos : Nat}
    (hpos : pos ≤ string.length) : occurrencesLoop string [] rounds n pos = none := by
  induction rounds generalizing n with
  | zero => rfl
  | succ rounds ih =>
      have hfound : indexOf [] string pos = some pos := by
        have hcut : cut [] (string.drop pos) = some ([], string.drop pos) := by
          cases string.drop pos <;> simp [cut]
        rw [indexOf_eq hpos, hcut]
        rfl
      rw [occurrencesLoop, hfound]
      exact ih (n + 1)

end Loop

/-- The pieces that the listener cuts its data into are those of the separator's copies. -/
theorem splitFrom_mark (data : Bytes) : splitFrom mark.text [] data = split data := by
  induction hlength : data.length using Nat.strongRecOn generalizing data with
  | ind length ih =>
      rw [split]
      split
      · rename_i hcut
        exact splitFrom_of_none mark.ne_nil hcut
      · rename_i front back hcut
        rw [splitFrom_of_some mark.ne_nil hcut,
          ih _ (hlength ▸ mark.length_lt_of_cut hcut) back rfl]

variable (parse : Bytes → Option Value) (registry : Nat → Registry)

/-- The listener for data as it stands in the source, with something in the place of the branch for
as many marks as pieces. The loop that counts the marks gets a round for each position. -/
def acceptOr (multi : List Bytes → Script Unit) (data : Bytes) : Script Unit := do
  if (indexOf mark.text data 0).isSome then
    let newset := Search.split data mark.text
    let res ← jsonParse parse (newset.headD [])
    if 1 < newset.length then
      if occurrencesLoop data mark.text (data.length + 1) 0 0 = some newset.length then multi newset
      else
        callAll parse registry newset.dropLast
        modify fun client =>
          { client with oldBuffer := newset.getLast?.getD [], waiting := true }
    else cb registry res
  else modify fun client => { client with oldBuffer := data, waiting := true }

/-- The branch in question makes no difference. -/
theorem acceptOr_eq (multi : List Bytes → Script Unit) (data : Bytes) :
    acceptOr parse registry multi data = accept parse registry data := by
  have hfound : (indexOf mark.text data 0).isSome = (cut mark.text data).isSome := by
    rw [indexOf_eq (Nat.zero_le _), List.drop_zero, Option.isSome_map]
  have hsplit : Search.split data mark.text = split data := by
    rw [split_eq mark.ne_nil, splitFrom_mark]
  have hloop := occurrencesLoop_ne_length_split mark.ne_nil data (data.length + 1)
  have hcount : occurrences data ≠ (split data).length := by
    rw [occurrences_eq_length, split_eq_pieces, List.length_append, List.length_singleton]
    omega
  rw [hsplit] at hloop
  simp only [acceptOr, accept, hfound, hsplit, hloop, hcount, if_false]

/-- The loop of `occurrences` ends for every text that is not empty and counts one copy less than
there are pieces. So there are never as many marks as pieces in the client's data, and whatever
stands in the branch for that is never run. -/
theorem multi_branch_dead {α : Type} [DecidableEq α] (string substring : List α)
    (hne : substring ≠ []) :
    (∃ count, (∀ rounds, string.length < rounds →
        occurrencesLoop string substring rounds 0 0 = some count) ∧
          (Search.split string substring).length = count + 1) ∧
      (∀ (data : Bytes) (rounds : Nat), occurrencesLoop data mark.text rounds 0 0 ≠
        some (Search.split data mark.text).length) ∧
        ∀ (parse : Bytes → Option Value) (registry : Nat → Registry)
          (multi : List Bytes → Script Unit) (data : Bytes),
          acceptOr parse registry multi data = accept parse registry data := by
  refine ⟨?_, occurrencesLoop_ne_length_split mark.ne_nil, acceptOr_eq⟩
  obtain ⟨count, hloop, hpieces⟩ :=
    occurrencesLoop_eq hne (n := 0) (Nat.zero_le string.length) (Nat.lt_succ_self string.length)
  rw [Nat.zero_add] at hloop
  refine ⟨count, fun rounds hrounds => occurrencesLoop_mono hloop hrounds, ?_⟩
  rw [split_eq hne]
  exact hpieces

/-- Copies side by side, at the beginning and at the end. -/
theorem multi_branch_dead_sample :
    (∃ count, (∀ rounds, [1, 1, 2, 1].length < rounds →
        occurrencesLoop [1, 1, 2, 1] [1] rounds 0 0 = some count) ∧
          (Search.split [1, 1, 2, 1] [1]).length = count + 1) ∧
      (∀ (data : Bytes) (rounds : Nat), occurrencesLoop data mark.text rounds 0 0 ≠
        some (Search.split data mark.text).length) ∧
        ∀ (parse : Bytes → Option Value) (registry : Nat → Registry)
          (multi : List Bytes → Script Unit) (data : Bytes),
          acceptOr parse registry multi data = accept parse registry data :=
  multi_branch_dead [1, 1, 2, 1] [1] (by decide)

end AnarchNet.Rpc.Client
