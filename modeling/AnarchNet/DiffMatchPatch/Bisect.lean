import AnarchNet.Lib.Diagonals
import AnarchNet.Lib.Native
import AnarchNet.DiffMatchPatch.Merge

/-!
# Bisecting two texts

`diff_bisect` of `diff_match_patch.h` up to the point where it splits the texts. Two paths go over
the grid of the texts, one from the front and one from the back, each with a vector that holds the
furthest point of each diagonal. The offsets of a `k` loop cut off the diagonals that ran off the
grid. `Lib/Diagonals.lean` shows that the paths stay where the vectors and the texts can be read,
and that they meet on the grid.
-/

namespace AnarchNet.DiffMatchPatch

open FileSystem EditScript Native Diagonals EStateM

/-- The readings of the clock that are left before the deadline. Nothing if there is no deadline. -/
abbrev Clock := Option Nat

/-- A program that reads the clock. -/
abbrev Timed := EStateM Stop Clock

/-- `clock() > deadline`. -/
def deadlinePassed : Timed Bool := do
  match ← get with
  | none => return false
  | some 0 => return true
  | some (readings + 1) =>
      set (some readings : Clock)
      return false

/-- What a program without the clock does. -/
def untimed {α : Type} : Except Stop α → Timed α
  | .ok value => return value
  | .error stop => throw stop

@[simp] theorem untimed_ok {α : Type} (value : α) : untimed (.ok value) = pure value := rfl

/-! ## Vectors -/

/-- An element of a vector. -/
def entry (v : List Int) (index : Int) : Except Stop Int :=
  if 0 ≤ index ∧ index < v.length then .ok (v.getD index.toNat 0) else .error .outside

/-- Replace an element of a vector. -/
def store (v : List Int) (index value : Int) : Except Stop (List Int) :=
  if 0 ≤ index ∧ index < v.length then .ok (v.set index.toNat value) else .error .outside

/-- An element of a vector that is there and is not −1. -/
def visited (v : List Int) (index : Int) : Option Int :=
  if 0 ≤ index ∧ index < v.length ∧ v.getD index.toNat 0 ≠ -1 then some (v.getD index.toNat 0)
  else none

/-! ## The paths -/

/-- The vector of a path and the offsets for the start and the end of its `k` loop. -/
structure Path where
  v : List Int
  kstart : Nat
  kend : Nat

/-- A path before the first round. -/
def Path.start (max_d : Nat) : Except Stop Path := do
  let v ← store (List.replicate (2 * max_d) (-1)) (max_d + 1) 0
  return { v := v, kstart := 0, kend := 0 }

/-- Where a path comes to a diagonal. -/
def Path.next (max_d d k : Int) (path : Path) : Except Stop Int :=
  if k = -d then entry path.v (max_d + k + 1)
  else if k = d then do
    let left ← entry path.v (max_d + k - 1)
    return left + 1
  else do
    let left ← entry path.v (max_d + k - 1)
    let right ← entry path.v (max_d + k + 1)
    return if left < right then right else left + 1

/-- Go on as long as the characters are the same. -/
def snake (text1 text2 : Bytes) (x y : Int) : Except Stop Int :=
  if x < text1.length ∧ y < text2.length then
    if x < 0 ∨ y < 0 then .error .outside
    else if text1[x.toNat]? = text2[y.toNat]? then snake text1 text2 (x + 1) (y + 1)
    else .ok x
  else .ok x
termination_by (text1.length - x).toNat
decreasing_by omega

/-- One turn of a `k` loop: the path afterwards, and where it has come to unless that is off the
grid. -/
def Path.turn (text1 text2 : Bytes) (max_d d k : Int) (path : Path) :
    Except Stop (Path × Option Int) := do
  let x ← path.next max_d d k
  let x ← snake text1 text2 x (x - k)
  let v ← store path.v (max_d + k) x
  if text1.length < x then
    -- ran off the right of the graph
    return ({ path with v := v, kend := path.kend + 2 }, none)
  else if text2.length < x - k then
    -- ran off the bottom of the graph
    return ({ path with v := v, kstart := path.kstart + 2 }, none)
  else return ({ path with v := v }, some x)

/-- A `k` loop from a diagonal on, with what is looked up at each point on the grid. It ends where
the paths overlap. -/
def Path.walk (text1 text2 : Bytes) (max_d d : Int) (overlap : Int → Int → Option (Int × Int))
    (k : Int) (path : Path) : Except Stop (Path × Option (Int × Int)) :=
  if k ≤ d - path.kend then do
    let (path, reached) ← path.turn text1 text2 max_d d k
    match reached.bind (overlap k) with
    | some split => return (path, some split)
    | none => path.walk text1 text2 max_d d overlap (k + 2)
  else return (path, none)
termination_by (d + 1 - k).toNat
decreasing_by omega

/-- The overlap that the front path looks for. -/
def overlapFront (text1_length max_d delta : Int) (v2 : List Int) (k1 x1 : Int) :
    Option (Int × Int) :=
  -- if the total number of characters is odd, the front path will collide with the reverse path
  if delta % 2 ≠ 0 then do
    let x2 ← visited v2 (max_d + delta - k1)
    -- mirror x2 onto the top-left coordinate system
    if text1_length - x2 ≤ x1 then some (x1, x1 - k1) else none
  else none

/-- The overlap that the reverse path looks for. -/
def overlapReverse (text1_length max_d delta : Int) (v1 : List Int) (k2 x2 : Int) :
    Option (Int × Int) :=
  if ¬ delta % 2 ≠ 0 then do
    let x1 ← visited v1 (max_d + delta - k2)
    if text1_length - x2 ≤ x1 then some (x1, max_d + x1 - (max_d + delta - k2)) else none
  else none

/-- The loop of `diff_bisect` from a round on, with the number of rounds that are left. The reverse
path goes over the reversed texts. -/
def rounds (text1 text2 : Bytes) (max_d : Nat) :
    Nat → Nat → Path → Path → Timed (Option (Int × Int))
  | 0, _, _, _ => return none
  | left + 1, d, path1, path2 => do
      if ← deadlinePassed then return none
      let delta : Int := text1.length - text2.length
      let (path1, split) ← untimed (path1.walk text1 text2 max_d d
        (overlapFront text1.length max_d delta path2.v) (-d + path1.kstart))
      match split with
      | some split => return some split
      | none =>
          let (path2, split) ← untimed (path2.walk text1.reverse text2.reverse max_d d
            (overlapReverse text1.length max_d delta path1.v) (-d + path2.kstart))
          match split with
          | some split => return some split
          | none => rounds text1 text2 max_d left (d + 1) path1 path2

/-- `diff_bisect` up to the point where the texts are split; nothing if the loop comes to its end.
The numbers are to fit an `int`. -/
def findSplit (text1 text2 : Bytes) : Timed (Option (Int × Int)) := do
  if 2 ^ 31 ≤ text1.length + text2.length + 1 then throw .range
  let max_d := (text1.length + text2.length + 1) / 2
  let path1 ← untimed (Path.start max_d)
  let path2 ← untimed (Path.start max_d)
  rounds text1 text2 max_d max_d 0 path1 path2

/-! ## Vectors as tables -/

/-- A vector holds the table around an offset. In the first rounds the diagonal 1 holds the entry
from which the path starts. -/
structure Shows (v : List Int) (offset : Nat) (table : Table) (fresh : Prop) : Prop where
  length : v.length = 2 * offset
  shows : ∀ k : Int, -offset ≤ k → k < offset → (k = 1 → fresh) →
    v.getD (offset + k).toNat 0 = table k

section Vectors

variable {v : List Int} {offset : Nat} {table : Table} {fresh : Prop} {k first last : Int}

theorem entry_of_shows (h : Shows v offset table fresh) {index : Int} (hindex : index = offset + k)
    (hk : -offset ≤ k) (hk' : k < offset) (hfresh : k = 1 → fresh) :
    entry v index = .ok (table k) := by
  subst hindex
  rw [entry, h.length, if_pos (by omega), h.shows k hk hk' hfresh]

theorem store_of_shows (h : Shows v offset table fresh) (value : Int) (hk : -offset ≤ k)
    (hk' : k < offset) : ∃ v', store v (offset + k) value = .ok v' ∧
      Shows v' offset (Function.update table k value) (fresh ∨ k = 1) := by
  refine ⟨v.set (offset + k).toNat value, ?_, ?_, ?_⟩
  · rw [store, h.length, if_pos (by omega)]
  · rw [List.length_set, h.length]
  · intro j hj hj' hfresh
    have hlength := h.length
    rw [List.getD_eq_getElem?_getD, List.getElem?_set]
    by_cases heq : k = j
    · rw [if_pos (by rw [heq]), if_pos (by omega), Option.getD_some, heq, Function.update_self]
    · rw [if_neg (by omega), ← List.getD_eq_getElem?_getD, Function.update_of_ne (Ne.symm heq)]
      exact h.shows j hj hj' fun hone =>
        (hfresh hone).resolve_right fun hk => heq (hk.trans hone.symm)

theorem visited_of_shows (h : Shows v offset table fresh) (hspans : Spans table first last)
    (hbounds : -offset ≤ first ∧ last < offset) {index : Int} (hindex : index = offset + k)
    (hfresh : k = 1 → fresh) :
    visited v index = if table k = -1 then none else some (table k) := by
  subst hindex
  rw [visited, h.length]
  by_cases hin : -offset ≤ k ∧ k < offset
  · rw [h.shows k hin.1 hin.2 hfresh]
    by_cases htable : table k = -1
    · rw [if_neg (by tauto), if_pos htable]
    · rw [if_pos ⟨by omega, by omega, htable⟩, if_neg htable]
  · rw [if_neg (by omega), if_pos (hspans.outside k (by omega))]

end Vectors

/-! ## A turn of a path -/

section Turns

variable {text1 text2 : Bytes}

/-- Two texts that end in different characters do not have equal last characters. -/
theorem snake_corner (hlast : text1.getLast? ≠ text2.getLast?) {x y : Int} (hx : 0 ≤ x) (hy : 0 ≤ y)
    (hchar : text1[x.toNat]? = text2[y.toNat]?) :
    ¬ (x + 1 = text1.length ∧ y + 1 = text2.length) := by
  rintro ⟨hx', hy'⟩
  apply hlast
  rw [List.getLast?_eq_getElem?, List.getLast?_eq_getElem?]
  rwa [show text1.length - 1 = x.toNat by omega, show text2.length - 1 = y.toNat by omega]

/-- Going along a diagonal stays on the grid. -/
theorem snake_spec (hlast : text1.getLast? ≠ text2.getLast?) {x y : Int} (hx : 0 ≤ x) (hy : 0 ≤ y) :
    ∃ after, snake text1 text2 x y = .ok after ∧
      (after = x ∨ x < after ∧ after ≤ text1.length ∧ y + (after - x) ≤ text2.length ∧
        after + (y + (after - x)) < text1.length + text2.length) := by
  induction hmeasure : (text1.length - x).toNat using Nat.strongRecOn generalizing x y with
  | ind measure ih =>
      subst hmeasure
      rw [snake]
      by_cases hin : x < text1.length ∧ y < text2.length
      · rw [if_pos hin, if_neg (by omega)]
        by_cases hchar : text1[x.toNat]? = text2[y.toNat]?
        · rw [if_pos hchar]
          have hcorner := snake_corner hlast hx hy hchar
          obtain ⟨after, hafter, hmoved⟩ := ih _ (by omega) (by omega : 0 ≤ x + 1)
            (by omega : 0 ≤ y + 1) rfl
          exact ⟨after, hafter, by omega⟩
        · rw [if_neg hchar]
          exact ⟨x, rfl, Or.inl rfl⟩
      · rw [if_neg hin]
        exact ⟨x, rfl, Or.inl rfl⟩

variable {s : State} {path : Path} {offset : Nat} {table : Table} {fresh : Prop} {k : Int}
  {overlap : Int → Int → Option (Int × Int)}

/-- What a path reads before it comes to a diagonal. -/
theorem next_spec {columns rows : Int} (hvalid : s.Valid columns rows) (hoffset : s.round < offset)
    (hrange : s.lo ≤ k ∧ k ≤ s.hi) (hparity : (k - s.round) % 2 = 0)
    (hshows : Shows path.v offset table fresh) (hfresh : 2 ≤ s.round → fresh)
    (hbefore : table (k - 1) = s.table (k - 1)) (habove : table (k + 1) = s.table (k + 1)) :
    path.next offset s.round k = .ok (reach s.table k) := by
  have hbounds := hvalid.bounds
  have hrange' := hvalid.range
  have hfirst := hvalid.spans.first_le
  have hlast := hvalid.spans.le_last
  have hleast := hvalid.spans.neg_one_le (k - 1)
  have hleft : k ≠ -s.round → entry path.v (offset + k - 1) = .ok (s.table (k - 1)) := by
    intro hne
    rw [← hbefore]
    exact entry_of_shows hshows (by omega) (by omega) (by omega) fun hone => hfresh (by omega)
  have hright : k ≠ s.round ∨ k = -s.round →
      entry path.v (offset + k + 1) = .ok (s.table (k + 1)) := by
    intro hne
    rw [← habove]
    exact entry_of_shows hshows (by omega) (by omega) (by omega) fun hone => hfresh (by omega)
  rw [Path.next, reach]
  by_cases hlow : k = -s.round
  · -- the lowest diagonal is reached from above
    rw [if_pos hlow, hright (Or.inr hlow)]
    have hout := hvalid.spans.outside (k - 1) (by omega)
    have hin := hvalid.spans.inside (k + 1) (by omega) (by omega)
    rw [hout]
    congr 1
    omega
  · rw [if_neg hlow]
    by_cases hhigh : k = s.round
    · rw [if_pos hhigh, hleft hlow]
      have hout := hvalid.spans.outside (k + 1) (by omega)
      rw [hout]
      show Except.ok _ = _
      congr 1
      omega
    · rw [if_neg hhigh, hleft hlow, hright (Or.inl hhigh)]
      show Except.ok _ = _
      split <;> congr 1 <;> omega

/-- A path in a round, before it comes to a diagonal. The overlap that is looked for was not found
so far. -/
structure Walking (columns rows : Int) (s : State) (offset : Nat) (fresh : Prop)
    (overlap : Int → Int → Option (Int × Int)) (k : Int) (path : Path) (table : Table) : Prop where
  shows : Shows path.v offset table (fresh ∨ Visited s.round s.lo (k - 2) 1)
  moves : Round columns rows s.round s.lo (k - 2) s.table table
  position : s.lo ≤ k ∧ k ≤ s.hi + 2 ∧ (k - s.round) % 2 = 0
  kend : path.kend % 2 = 0 ∧ s.round - path.kend ≤ s.hi
  right : s.round - path.kend = s.hi ∨ ∃ j, Visited s.round s.lo (k - 2) j ∧ columns < table j ∧
    j ≤ s.round + 1 - path.kend + 1
  kstart : path.kstart % 2 = 0 ∧ s.lo ≤ -s.round + path.kstart ∧ -s.round + path.kstart ≤ k
  bottom : -s.round + path.kstart = s.lo ∨ ∃ j, Visited s.round s.lo (k - 2) j ∧
    rows < table j - j ∧ -(s.round + 1) + path.kstart ≤ j + 1
  misses : ∀ j, Visited s.round s.lo (k - 2) j → table j ≤ columns → table j - j ≤ rows →
    overlap j (table j) = none

/-- The table after one more diagonal. -/
theorem Walking.moves_next {columns rows : Int}
    (h : Walking columns rows s offset fresh overlap k path table)
    {x : Int} (hx : x = reach s.table k ∨ reach s.table k < x ∧ x ≤ columns ∧ x - k ≤ rows ∧
      x + (x - k) < columns + rows) :
    Round columns rows s.round s.lo k s.table (Function.update table k x) where
  stays := by
    intro j hj
    have hne : j ≠ k := by
      intro heq
      have := h.position
      exact hj ⟨by omega, by omega, by omega⟩
    rw [Function.update_of_ne hne]
    exact h.moves.stays j fun hvisited =>
      hj ⟨hvisited.1, by have := hvisited.2.1; omega, hvisited.2.2⟩
  moves := by
    intro j hj
    by_cases heq : j = k
    · rw [heq, Function.update_self]
      exact hx
    · rw [Function.update_of_ne heq]
      have hposition := h.position
      have hparity := hj.2.2
      have := hj.2.1
      exact h.moves.moves j ⟨hj.1, by omega, hparity⟩

/-- The path behind a diagonal. -/
theorem Walking.step {columns rows : Int}
    (h : Walking columns rows s offset fresh overlap k path table)
    (hk : k ≤ s.round - path.kend) {x : Int} {after : Path}
    (hx : x = reach s.table k ∨ reach s.table k < x ∧ x ≤ columns ∧ x - k ≤ rows ∧
      x + (x - k) < columns + rows)
    (hshows : Shows after.v offset (Function.update table k x)
      ((fresh ∨ Visited s.round s.lo (k - 2) 1) ∨ k = 1))
    (hafter : columns < x ∧ after.kend = path.kend + 2 ∧ after.kstart = path.kstart ∨
      (x ≤ columns ∧ rows < x - k ∧ after.kend = path.kend ∧ after.kstart = path.kstart + 2 ∨
        x ≤ columns ∧ x - k ≤ rows ∧ after.kend = path.kend ∧ after.kstart = path.kstart ∧
          overlap k x = none)) :
    Walking columns rows s offset fresh overlap (k + 2) after (Function.update table k x) := by
  have htwo : k + 2 - 2 = k := by omega
  have hposition := h.position
  have hkend := h.kend
  have hkstart := h.kstart
  have hhere : Visited s.round s.lo k k := ⟨by omega, le_refl _, by omega⟩
  have hearlier : ∀ j, Visited s.round s.lo (k - 2) j →
      Visited s.round s.lo k j ∧ Function.update table k x j = table j := by
    intro j hj
    have := hj.2.1
    exact ⟨⟨hj.1, by omega, hj.2.2⟩, Function.update_of_ne (by omega) _ _⟩
  refine ⟨⟨hshows.length, ?_⟩, ?_, by omega, by omega, ?_, by omega, ?_, ?_⟩
  · intro j hj hj' hfresh
    refine hshows.shows j hj hj' fun hone => ?_
    rcases hfresh hone with hfresh | hvisited
    · exact Or.inl (Or.inl hfresh)
    · by_cases heq : k = 1
      · exact Or.inr heq
      · have hparity := hvisited.2.2
        have := hvisited.2.1
        exact Or.inl (Or.inr ⟨hvisited.1, by omega, hparity⟩)
  · rw [htwo]
    exact h.moves_next hx
  · rw [htwo]
    by_cases hoff : columns < x
    · -- the diagonal ran off the right
      refine Or.inr ⟨k, hhere, ?_, by omega⟩
      rwa [Function.update_self]
    · rcases h.right with heq | ⟨j, hj, hright, hle⟩
      · exact Or.inl (by omega)
      · obtain ⟨hj', htable⟩ := hearlier j hj
        exact Or.inr ⟨j, hj', by rwa [htable], by omega⟩
  · rw [htwo]
    by_cases hoff : x ≤ columns ∧ rows < x - k
    · -- the diagonal ran off the bottom
      refine Or.inr ⟨k, hhere, ?_, by omega⟩
      rw [Function.update_self]
      exact hoff.2
    · rcases h.bottom with heq | ⟨j, hj, hbottom, hle⟩
      · exact Or.inl (by omega)
      · obtain ⟨hj', htable⟩ := hearlier j hj
        exact Or.inr ⟨j, hj', by rwa [htable], by omega⟩
  · rw [htwo]
    intro j hj hright hbottom
    by_cases heq : j = k
    · rw [heq, Function.update_self] at hright hbottom ⊢
      rcases hafter with hoff | hoff | hon
      · omega
      · omega
      · exact hon.2.2.2.2
    · have hparity := hj.2.2
      have hle := hj.2.1
      have hj' : Visited s.round s.lo (k - 2) j := ⟨hj.1, by omega, hparity⟩
      rw [(hearlier j hj').2] at hright hbottom ⊢
      exact h.misses j hj' hright hbottom

/-- **A turn of a path** reads nothing outside of the vector and the texts. -/
theorem Walking.turn (h : Walking text1.length text2.length s offset fresh overlap k path table)
    (hvalid : s.Valid text1.length text2.length) (hoffset : s.round < offset)
    (hfresh : 2 ≤ s.round → fresh) (hk : k ≤ s.round - path.kend)
    (hlast : text1.getLast? ≠ text2.getLast?) :
    ∃ after reached x, path.turn text1 text2 offset s.round k = .ok (after, reached) ∧
      Round text1.length text2.length s.round s.lo k s.table (Function.update table k x) ∧
      (reached.bind (overlap k) = none →
        Walking text1.length text2.length s offset fresh overlap (k + 2) after
          (Function.update table k x)) ∧
      ∀ split, reached.bind (overlap k) = some split →
        x ≤ text1.length ∧ x - k ≤ text2.length ∧ overlap k x = some split := by
  have hposition := h.position
  have hkend := h.kend
  have hbounds := hvalid.bounds
  have hrange := hvalid.range
  have hreach := hvalid.spans.le_reach (k := k) (by omega)
  have hnext : path.next offset s.round k = .ok (reach s.table k) := by
    refine next_spec hvalid hoffset (by omega) hposition.2.2 h.shows
      (fun htwo => Or.inl (hfresh htwo)) ?_ ?_
    · exact h.moves.stays _ fun hvisited => by have := hvisited.2.2; omega
    · exact h.moves.stays _ fun hvisited => by have := hvisited.2.2; omega
  obtain ⟨x, hsnake, hmoved⟩ := snake_spec hlast hreach.1
    (show 0 ≤ reach s.table k - k by omega)
  obtain ⟨v, hstore, hshows⟩ := store_of_shows h.shows x (k := k) (by omega) (by omega)
  have hx : x = reach s.table k ∨ reach s.table k < x ∧ x ≤ text1.length ∧ x - k ≤ text2.length ∧
      x + (x - k) < text1.length + text2.length := by omega
  have hround := h.moves_next hx
  by_cases hright : (text1.length : Int) < x
  · refine ⟨{ path with v := v, kend := path.kend + 2 }, none, x, ?_, hround, ?_, ?_⟩
    · simp only [Path.turn, hnext, hsnake, hstore, bind, Except.bind, if_pos hright, pure,
        Except.pure]
    · intro _
      exact h.step hk hx hshows (Or.inl ⟨hright, rfl, rfl⟩)
    · intro split hsplit
      cases hsplit
  · by_cases hbottom : (text2.length : Int) < x - k
    · refine ⟨{ path with v := v, kstart := path.kstart + 2 }, none, x, ?_, hround, ?_, ?_⟩
      · simp only [Path.turn, hnext, hsnake, hstore, bind, Except.bind, if_neg hright, if_pos hbottom,
          pure, Except.pure]
      · intro _
        exact h.step hk hx hshows (Or.inr (Or.inl ⟨by omega, hbottom, rfl, rfl⟩))
      · intro split hsplit
        cases hsplit
    · refine ⟨{ path with v := v }, some x, x, ?_, hround, ?_, ?_⟩
      · simp only [Path.turn, hnext, hsnake, hstore, bind, Except.bind, if_neg hright,
          if_neg hbottom, pure, Except.pure]
      · intro hnone
        exact h.step hk hx hshows (Or.inr (Or.inr ⟨by omega, by omega, rfl, rfl, hnone⟩))
      · intro split hsplit
        exact ⟨by omega, by omega, hsplit⟩

/-- A path before a round of a search. -/
structure Path.At (path : Path) (s : State) (offset : Nat) (fresh : Prop) : Prop where
  shows : Shows path.v offset s.table fresh
  lo : s.lo = -s.round + path.kstart
  hi : s.hi = s.round - path.kend
  even : path.kstart % 2 = 0 ∧ path.kend % 2 = 0

/-- The end of a `k` loop is the end of a round. -/
theorem Walking.ends {columns rows : Int}
    (h : Walking columns rows s offset fresh overlap k path table)
    (hvalid : s.Valid columns rows) (hcolumns : 0 ≤ columns) (hrows : 0 ≤ rows)
    (hk : ¬ k ≤ s.round - path.kend) :
    ∃ t back, Advance columns rows s t s.lo back ∧ t.table = table ∧
      path.At t offset (fresh ∨ Visited s.round s.lo back 1) ∧ back = k - 2 := by
  have hposition := h.position
  have hkend := h.kend
  have hkstart := h.kstart
  have hparity := hvalid.parity
  have hbounds := hvalid.bounds
  have hrange := hvalid.range
  have horder := hvalid.lo_le_hi hcolumns hrows
  refine ⟨s.next s.lo (k - 2) (-(s.round + 1) + path.kstart) (s.round + 1 - path.kend) table, k - 2,
    ⟨rfl, rfl, rfl, h.moves, ⟨⟨by omega, ?_⟩, ?_⟩, ⟨⟨le_refl _, ?_⟩, ?_⟩, ?_⟩, rfl,
    ⟨h.shows, rfl, rfl, by omega⟩, rfl⟩
  · show s.round + 1 - (path.kend : Int) ≤ k - 2 + 1
    omega
  · show _ ∨ ∃ j, _ ∧ _ ∧ j ≤ s.round + 1 - (path.kend : Int) + 1
    rcases h.right with heq | hoff
    · refine Or.inl ⟨by omega, ?_⟩
      show s.round + 1 - (path.kend : Int) = s.hi + 1
      omega
    · exact Or.inr hoff
  · show -(-(s.round + 1) + (path.kstart : Int)) ≤ -s.lo + 1
    omega
  · rcases h.bottom with heq | ⟨j, hj, hoff, hle⟩
    · refine Or.inl ⟨rfl, ?_⟩
      show -(-(s.round + 1) + (path.kstart : Int)) = -s.lo + 1
      omega
    · refine Or.inr ⟨-j, hj.flip, ?_, ?_⟩
      · have := (h.moves.visited hvalid.spans hj (by
          have := hj.1
          have := hj.2.1
          omega)).1
        show rows < transpose table (-j)
        rwa [transpose_of_visited (by omega)]
      · show -j ≤ -(-(s.round + 1) + (path.kstart : Int)) + 1
        omega
  · show (-(s.round + 1) + (path.kstart : Int) - (s.round + 1)) % 2 = 0 ∧
      (s.round + 1 - (path.kend : Int) - (s.round + 1)) % 2 = 0
    omega

/-- What a `k` loop comes to: a round without overlaps, or the first overlap. -/
def Walked (columns rows : Int) (s : State) (offset : Nat) (fresh : Prop)
    (overlap : Int → Int → Option (Int × Int))
    (result : Except Stop (Path × Option (Int × Int))) : Prop :=
  (∃ after t back, result = .ok (after, none) ∧ Advance columns rows s t s.lo back ∧
    after.At t offset (fresh ∨ Visited s.round s.lo back 1) ∧
    ∀ j, Visited s.round s.lo back j → t.table j ≤ columns → t.table j - j ≤ rows →
      overlap j (t.table j) = none) ∨
  ∃ after split j table, result = .ok (after, some split) ∧
    Round columns rows s.round s.lo j s.table table ∧ j ≤ s.hi ∧ Visited s.round s.lo j j ∧
    table j ≤ columns ∧ table j - j ≤ rows ∧ overlap j (table j) = some split

/-- **A `k` loop** reads nothing outside of the vector and the texts. -/
theorem Walking.walk (h : Walking text1.length text2.length s offset fresh overlap k path table)
    (hvalid : s.Valid text1.length text2.length) (hoffset : s.round < offset)
    (hfresh : 2 ≤ s.round → fresh) (hlast : text1.getLast? ≠ text2.getLast?) :
    Walked text1.length text2.length s offset fresh overlap
      (path.walk text1 text2 offset s.round overlap k) := by
  induction hmeasure : (s.round + 1 - k).toNat using Nat.strongRecOn generalizing k path table with
  | ind measure ih =>
      subst hmeasure
      rw [Path.walk]
      by_cases hk : k ≤ s.round - path.kend
      · rw [if_pos hk]
        obtain ⟨after, reached, x, hturn, hround, hnone, hsome⟩ :=
          h.turn hvalid hoffset hfresh hk hlast
        have hposition := h.position
        have hkend := h.kend
        simp only [hturn, bind, Except.bind]
        cases hoverlap : reached.bind (overlap k) with
        | none =>
            simp only
            exact ih _ (by omega) (hnone hoverlap) rfl
        | some split =>
            simp only
            obtain ⟨hright, hbottom, hfound⟩ := hsome split hoverlap
            refine Or.inr ⟨after, split, k, _, rfl, hround, by omega,
              ⟨by omega, le_refl _, by omega⟩,
              ?_⟩
            rw [Function.update_self]
            exact ⟨hright, hbottom, hfound⟩
      · rw [if_neg hk]
        obtain ⟨t, back, hadvance, htable, hat, hback⟩ :=
          h.ends hvalid (Int.natCast_nonneg _) (Int.natCast_nonneg _) hk
        refine Or.inl ⟨path, t, back, rfl, hadvance, hat, ?_⟩
        rw [htable, hback]
        exact h.misses

/-- A path at the beginning of a `k` loop. -/
theorem Path.At.walking {columns rows : Int} (h : path.At s offset fresh)
    (hvalid : s.Valid columns rows) (hcolumns : 0 ≤ columns) (hrows : 0 ≤ rows) :
    Walking columns rows s offset fresh overlap s.lo path s.table := by
  have hlo := h.lo
  have hhi := h.hi
  have heven := h.even
  have hparity := hvalid.parity
  have horder := hvalid.lo_le_hi hcolumns hrows
  have hnot : ∀ j, ¬ Visited s.round s.lo (s.lo - 2) j := fun j hj => by
    have := hj.1
    have := hj.2.1
    omega
  refine ⟨⟨h.shows.length, ?_⟩, ⟨fun _ _ => rfl, fun j hj => absurd hj (hnot j)⟩, by omega, by omega,
    Or.inl (by omega), by omega, Or.inl (by omega), fun j hj => absurd hj (hnot j)⟩
  intro j hj hj' hfresh
  exact h.shows.shows j hj hj' fun hone => (hfresh hone).resolve_right (hnot 1)

/-- The `k` loop of a path. -/
theorem Path.At.walk (overlap : Int → Int → Option (Int × Int)) (h : path.At s offset (2 ≤ s.round))
    (hvalid : s.Valid text1.length text2.length) (hlast : text1.getLast? ≠ text2.getLast?) {d : Nat}
    (hround : s.round = d) (hd : d < offset) :
    Walked text1.length text2.length s offset (2 ≤ s.round) overlap
      (path.walk text1 text2 offset d overlap (-d + path.kstart)) := by
  have hlo := h.lo
  rw [hround] at hlo
  rw [← hlo, ← hround]
  exact (h.walking hvalid (Int.natCast_nonneg _) (Int.natCast_nonneg _)).walk hvalid (by omega) id
    hlast

end Turns

/-! ## Overlaps -/

/-- In a round, what is looked up at a point is whether it meets the point of the other path. One of
both is returned. -/
def Finds (columns rows : Int) (s : State) (round : Int)
    (overlap : Int → Int → Option (Int × Int)) : Prop :=
  ∀ k x, (k - round) % 2 = 0 → ∃ split, (split = (x, x - k) ∨
      split = (s.table (columns - rows - k), s.table (columns - rows - k) - (columns - rows - k))) ∧
    overlap k x = if s.table (columns - rows - k) ≠ -1 ∧
      columns ≤ s.table (columns - rows - k) + x then some split else none

section Overlaps

variable {offset : Nat} {s : State} {path : Path} {columns rows round : Int}

/-- The entry of a diagonal of the other path. -/
theorem Path.At.visited (h : path.At s offset (2 ≤ s.round)) (hvalid : s.Valid columns rows)
    (hoffset : s.round ≤ offset) {index k : Int} (hindex : index = offset + k)
    (hk : k = 1 → 2 ≤ s.round) :
    visited path.v index = if s.table k = -1 then none else some (s.table k) := by
  have hbounds := hvalid.bounds
  exact visited_of_shows h.shows hvalid.spans ⟨by omega, by omega⟩ hindex hk

/-- The front path looks up the points of the reverse path. -/
theorem finds_overlapFront (hodd : (columns - rows) % 2 ≠ 0) (h : path.At s offset (2 ≤ s.round))
    (hvalid : s.Valid columns rows) (hoffset : s.round ≤ offset)
    (hround : (columns - rows + 1 - s.round - round) % 2 = 0) :
    Finds columns rows s round (overlapFront columns offset (columns - rows) path.v) := by
  intro k x hk
  refine ⟨(x, x - k), Or.inl rfl, ?_⟩
  have hbounds := hvalid.bounds
  have hspan := hvalid.spans.first_le
  rw [overlapFront, if_pos hodd,
    h.visited hvalid hoffset (k := columns - rows - k) (by omega) (by omega)]
  by_cases hvisited : s.table (columns - rows - k) = -1
  · rw [if_pos hvisited, if_neg (by tauto)]
    rfl
  · rw [if_neg hvisited]
    show (if _ then _ else _) = _
    by_cases hmeet : columns ≤ s.table (columns - rows - k) + x
    · rw [if_pos (by omega), if_pos ⟨hvisited, hmeet⟩]
    · rw [if_neg (by omega), if_neg (by tauto)]

/-- The reverse path looks up the points of the front path. -/
theorem finds_overlapReverse (heven : (columns - rows) % 2 = 0) (h : path.At s offset (2 ≤ s.round))
    (hvalid : s.Valid columns rows) (hoffset : s.round ≤ offset)
    (hround : (columns - rows + 1 - s.round - round) % 2 = 0) :
    Finds columns rows s round (overlapReverse columns offset (columns - rows) path.v) := by
  intro k x hk
  refine ⟨_, Or.inr rfl, ?_⟩
  have hbounds := hvalid.bounds
  have hspan := hvalid.spans.first_le
  rw [overlapReverse, if_pos (by omega),
    h.visited hvalid hoffset (k := columns - rows - k) (by omega) (by omega)]
  by_cases hvisited : s.table (columns - rows - k) = -1
  · rw [if_pos hvisited, if_neg (by tauto)]
    rfl
  · rw [if_neg hvisited]
    show (if _ then _ else _) = _
    by_cases hmeet : columns ≤ s.table (columns - rows - k) + x
    · rw [if_pos (by omega), if_pos ⟨hvisited, hmeet⟩]
      congr 2
      omega
    · rw [if_neg (by omega), if_neg (by tauto)]

end Overlaps

/-! ## All rounds -/

section Rounds

variable {text1 text2 : Bytes} {offset : Nat} {s s' t : State} {path path1 path2 : Path}

theorem deadlinePassed_yields : Yields (fun _ => True) deadlinePassed := by
  intro clock
  left
  cases clock with
  | none => exact ⟨false, none, rfl, trivial⟩
  | some readings =>
      cases readings with
      | zero => exact ⟨true, some 0, rfl, trivial⟩
      | succ readings => exact ⟨false, some readings, rfl, trivial⟩

/-- After a round nothing is left of the entry from which the path started. -/
theorem Path.At.next {columns rows back : Int} (h : path.At t offset
      (2 ≤ s.round ∨ Visited s.round s.lo back 1))
    (hadvance : Advance columns rows s t s.lo back) (hvalid : s.Valid columns rows)
    (hvalid' : t.Valid columns rows) : path.At t offset (2 ≤ t.round) := by
  refine ⟨⟨h.shows.length, ?_⟩, h.lo, h.hi, h.even⟩
  intro k hk hk' _
  refine h.shows.shows k hk hk' fun _ => ?_
  have hbounds := hvalid.bounds
  have hfirst := hvalid.spans.first_le
  have hround := hadvance.round
  by_cases hone : s.round = 1
  · -- the first round visits the diagonals next to the corner
    have hwide := hvalid'.wide (by omega)
    rw [hadvance.first, hadvance.last] at hwide
    exact Or.inr ⟨by omega, by omega, by omega⟩
  · exact Or.inl (by omega)

section Walks

variable {columns rows : Int} {overlap : Int → Int → Option (Int × Int)}
  {result : Except Stop (Path × Option (Int × Int))}

/-- A path that looks for nothing comes to the end of its round. -/
theorem Walked.lead (h : Walked columns rows s offset (2 ≤ s.round) overlap result)
    (happart : Apart columns rows s s') (hcolumns : 2 ≤ columns) (hrows : 2 ≤ rows)
    (hnothing : ∀ k x, overlap k x = none) :
    ∃ after t, result = .ok (after, none) ∧ Led columns rows t s' ∧ t.round = s.round + 1 ∧
      after.At t offset (2 ≤ t.round) := by
  obtain ⟨after, t, back, hresult, hadvance, hat, -⟩ | ⟨after, split, k, table, hresult, -, -, -, -,
    -, hfound⟩ := h
  · have hled := happart.lead hcolumns hrows hadvance
    exact ⟨after, t, hresult, hled, hadvance.round, hat.next hadvance happart.valid hled.valid⟩
  · rw [hnothing] at hfound
    cases hfound

/-- A path that looks for the points of the other one comes to the end of its round, or to a point
of the grid. -/
theorem Walked.follow (h : Walked columns rows s' offset (2 ≤ s'.round) overlap result)
    (hled : Led columns rows s s') (hcolumns : 2 ≤ columns) (hrows : 2 ≤ rows)
    (hfinds : Finds columns rows s s'.round overlap) :
    (∃ after t, result = .ok (after, none) ∧ Apart columns rows s t ∧ t.round = s'.round + 1 ∧
      after.At t offset (2 ≤ t.round)) ∨
    ∃ after split, result = .ok (after, some split) ∧ Between columns rows split.1 split.2 := by
  obtain ⟨after, t, back, hresult, hadvance, hat, hmisses⟩ | ⟨after, split, k, table, hresult, hmoves,
    hk, hvisited, hright, hbottom, hfound⟩ := h
  · left
    have happart := hled.follow hcolumns hrows hadvance (by
      intro k hk hright hbottom hother
      have hnone := hmisses k hk hright hbottom
      obtain ⟨split, -, hoverlap⟩ := hfinds k (t.table k) hk.2.2
      rw [hoverlap] at hnone
      by_contra hmeet
      rw [if_pos ⟨hother, by omega⟩] at hnone
      cases hnone)
    exact ⟨after, t, hresult, happart, hadvance.round, hat.next hadvance hled.valid' happart.valid'⟩
  · right
    obtain ⟨split', hsplit, hoverlap⟩ := hfinds k (table k) hvisited.2.2
    rw [hoverlap, Option.ite_none_right_eq_some] at hfound
    obtain ⟨⟨hother, hmeet⟩, heq⟩ := hfound
    obtain ⟨hbetween, hbetween'⟩ := hled.meet hcolumns hmoves ⟨le_refl _, hk⟩ hvisited hright hbottom
      hother hmeet
    refine ⟨after, split, hresult, ?_⟩
    rw [← Option.some.inj heq]
    rcases hsplit with hsplit | hsplit
    · rw [hsplit]
      exact hbetween'
    · rw [hsplit]
      exact hbetween

end Walks

/-- Where the texts are split, if they are. -/
def Splits (text1 text2 : Bytes) (result : Option (Int × Int)) : Prop :=
  ∀ split ∈ result, Between text1.length text2.length split.1 split.2

theorem splits_none : Splits text1 text2 none := fun split hsplit => by cases hsplit

theorem splits_some {split : Int × Int} (h : Between text1.length text2.length split.1 split.2) :
    Splits text1 text2 (some split) := by
  intro other hother
  cases hother
  exact h

/-- The `k` loop of the reverse path. -/
theorem Path.At.walk_reverse (overlap : Int → Int → Option (Int × Int))
    (h : path.At s offset (2 ≤ s.round)) (hvalid : s.Valid text1.length text2.length)
    (hfirst : text1.head? ≠ text2.head?) {d : Nat} (hround : s.round = d) (hd : d < offset) :
    Walked text1.length text2.length s offset (2 ≤ s.round) overlap
      (path.walk text1.reverse text2.reverse offset d overlap (-d + path.kstart)) := by
  have hlast : text1.reverse.getLast? ≠ text2.reverse.getLast? := by
    rwa [List.getLast?_reverse, List.getLast?_reverse]
  rw [← text1.length_reverse, ← text2.length_reverse] at hvalid ⊢
  exact h.walk overlap hvalid hlast hround hd

variable (hlength1 : 2 ≤ text1.length) (hlength2 : 2 ≤ text2.length)
  (hfirst : text1.head? ≠ text2.head?) (hlast : text1.getLast? ≠ text2.getLast?)

include hlength1 hlength2 hfirst hlast

/-- The rounds, if the total number of characters is even: the reverse path looks for the overlap.
-/
theorem rounds_even (heven : ((text1.length : Int) - text2.length) % 2 = 0) (left d : Nat)
    (hleft : d + left ≤ offset) (happart : Apart text1.length text2.length s s')
    (hround : s.round = d) (hround' : s'.round = d)
    (hat : path1.At s offset (2 ≤ s.round)) (hat' : path2.At s' offset (2 ≤ s'.round)) :
    Yields (Splits text1 text2) (rounds text1 text2 offset left d path1 path2) := by
  have hcolumns : (2 : Int) ≤ text1.length := by omega
  have hrows : (2 : Int) ≤ text2.length := by omega
  induction left generalizing d s s' path1 path2 with
  | zero => exact Settles.pure splits_none
  | succ left ih =>
      rw [rounds]
      refine deadlinePassed_yields.bind fun passed _ => ?_
      cases passed with
      | true => exact Settles.pure splits_none
      | false =>
          obtain ⟨after1, t, hwalk, hled, htround, hafter⟩ := (hat.walk (overlapFront text1.length offset
            (text1.length - text2.length) path2.v) happart.valid hlast hround (by omega)).lead happart
            hcolumns hrows fun k x => if_neg (not_not.2 heven)
          have hparity := hled.parity
          have hfinds := finds_overlapReverse heven hafter hled.valid (by omega) hparity
          simp only [Bool.false_eq_true, if_false, hwalk, untimed_ok, pure_bind]
          obtain ⟨after2, t', hwalk', happart', htround', hafter'⟩ | ⟨after2, split, hwalk', hsplit⟩ :=
            (hat'.walk_reverse _ happart.valid' hfirst hround' (by omega)).follow hled hcolumns hrows
              hfinds
          · simp only [hwalk', untimed_ok, pure_bind]
            exact ih (d + 1) (by omega) happart' (by omega) (by omega) hafter hafter'
          · simp only [hwalk', untimed_ok, pure_bind]
            exact Settles.pure (splits_some hsplit)

/-- The rounds, if the total number of characters is odd: the front path looks for the overlap. -/
theorem rounds_odd (hodd : ((text1.length : Int) - text2.length) % 2 ≠ 0) (left d : Nat)
    (hleft : d + left ≤ offset) (hled : Led text1.length text2.length s' s)
    (hround : s.round = d) (hround' : s'.round = d)
    (hat : path1.At s offset (2 ≤ s.round)) (hat' : path2.At s' offset (2 ≤ s'.round)) :
    Yields (Splits text1 text2) (rounds text1 text2 offset left d path1 path2) := by
  have hcolumns : (2 : Int) ≤ text1.length := by omega
  have hrows : (2 : Int) ≤ text2.length := by omega
  induction left generalizing d s s' path1 path2 with
  | zero => exact Settles.pure splits_none
  | succ left ih =>
      rw [rounds]
      refine deadlinePassed_yields.bind fun passed _ => ?_
      cases passed with
      | true => exact Settles.pure splits_none
      | false =>
          have hparity := hled.parity
          have hfinds := finds_overlapFront hodd hat' hled.valid (by omega) hparity
          simp only [Bool.false_eq_true, if_false]
          obtain ⟨after1, t, hwalk, happart, htround, hafter⟩ | ⟨after1, split, hwalk, hsplit⟩ :=
            (hat.walk _ hled.valid' hlast hround (by omega)).follow hled hcolumns hrows hfinds
          · obtain ⟨after2, t', hwalk', hled', htround', hafter'⟩ := (hat'.walk_reverse
              (overlapReverse text1.length offset (text1.length - text2.length) after1.v) hled.valid
              hfirst hround' (by omega)).lead happart hcolumns hrows fun k x => if_neg (not_not.2 hodd)
            simp only [hwalk, hwalk', untimed_ok, pure_bind]
            exact ih (d + 1) (by omega) hled' (by omega) (by omega) hafter hafter'
          · simp only [hwalk, untimed_ok, pure_bind]
            exact Settles.pure (splits_some hsplit)

end Rounds

/-! ## The first round -/

/-- A vector in the first round: nothing has moved. -/
def Unmoved (v : List Int) : Prop := ∀ x ∈ v, x = -1 ∨ x = 0

section First

variable {text1 text2 : Bytes} {offset : Nat} {v : List Int} {path : Path}

theorem Unmoved.visited (h : Unmoved v) {index x : Int} (hx : visited v index = some x) :
    x = 0 := by
  rw [DiffMatchPatch.visited, Option.ite_none_right_eq_some] at hx
  obtain ⟨⟨hpos, hlength, hne⟩, heq⟩ := hx
  rw [List.getD_eq_getElem?_getD, List.getElem?_eq_getElem (by omega), Option.getD_some] at hne heq
  have hmem := h _ (List.getElem_mem (show index.toNat < v.length by omega))
  rw [Option.some.injEq] at heq
  omega

theorem Unmoved.store (h : Unmoved v) {index : Int} {after : List Int}
    (hafter : store v index 0 = .ok after) : Unmoved after := by
  unfold DiffMatchPatch.store at hafter
  split at hafter
  · rw [Except.ok.injEq] at hafter
    subst hafter
    intro x hx
    rcases List.mem_or_eq_of_mem_set hx with hx | hx
    · exact h x hx
    · exact Or.inr hx
  · cases hafter

/-- A path before the first round: the vector holds the entry from which it starts. -/
theorem start_spec (hoffset : 2 ≤ offset) : ∃ path, Path.start offset = .ok path ∧
    Unmoved path.v ∧ Shows path.v offset (fun _ => -1) False ∧ path.kstart = 0 ∧ path.kend = 0 ∧
      entry path.v (offset + 1) = .ok 0 := by
  have hshows : Shows (List.replicate (2 * offset) (-1)) offset (fun _ => -1) True := by
    refine ⟨List.length_replicate, ?_⟩
    intro k hk hk' _
    rw [List.getD_eq_getElem?_getD, List.getElem?_replicate, if_pos (by omega), Option.getD_some]
  have hunmoved : Unmoved (List.replicate (2 * offset) (-1)) :=
    fun x hx => Or.inl (List.eq_of_mem_replicate hx)
  obtain ⟨v, hstore, hv⟩ := store_of_shows hshows 0 (k := 1) (by omega) (by omega)
  refine ⟨{ v := v, kstart := 0, kend := 0 }, ?_, hunmoved.store hstore, ⟨hv.length, ?_⟩, rfl, rfl,
    ?_⟩
  · simp only [Path.start, hstore, bind, Except.bind, pure, Except.pure]
  · intro k hk hk' hone
    rw [hv.shows k hk hk' fun _ => Or.inl trivial, Function.update_of_ne fun heq => hone heq]
  · rw [entry_of_shows hv (k := 1) rfl (by omega) (by omega) fun _ => Or.inl trivial,
      Function.update_self]

/-- **The first round of a path**: it stays in its corner. -/
theorem first_walk (hlength1 : 2 ≤ text1.length) (hlength2 : 2 ≤ text2.length)
    (hfirst : text1.head? ≠ text2.head?) (hoffset : 2 ≤ offset)
    (overlap : Int → Int → Option (Int × Int)) (hoverlap : overlap 0 0 = none)
    (hunmoved : Unmoved path.v) (hshows : Shows path.v offset (fun _ => -1) False)
    (hkstart : path.kstart = 0) (hkend : path.kend = 0)
    (hentry : entry path.v (offset + 1) = .ok 0) :
    ∃ after, path.walk text1 text2 offset (0 : Nat) overlap (-(0 : Nat) + path.kstart) =
        .ok (after, none) ∧ after.At State.start offset (2 ≤ State.start.round) ∧
        Unmoved after.v := by
  obtain ⟨v, hstore, hv⟩ := store_of_shows hshows 0 (k := 0) (by omega) (by omega)
  have hchar : text1[(0 : Int).toNat]? ≠ text2[(0 : Int).toNat]? := by
    rwa [Int.toNat_zero, ← List.head?_eq_getElem?, ← List.head?_eq_getElem?]
  have hsnake : snake text1 text2 0 (0 - 0) = .ok 0 := by
    rw [snake, sub_zero, if_pos (by omega), if_neg (by omega), if_neg hchar]
  have hturn : path.turn text1 text2 offset 0 0 = .ok ({ path with v := v }, some 0) := by
    have hnext : path.next offset 0 0 = .ok 0 := by
      rw [Path.next, if_pos (by omega), add_zero, hentry]
    simp only [Path.turn, hnext, hsnake, hstore, bind, Except.bind]
    rw [if_neg (by omega), if_neg (by omega)]
    rfl
  refine ⟨{ path with v := v }, ?_, ⟨⟨hv.length, ?_⟩, ?_, ?_, ?_⟩, hunmoved.store hstore⟩
  · rw [hkstart, Nat.cast_zero, neg_zero, add_zero, Path.walk, if_pos (by rw [hkend]; omega)]
    simp only [hturn, bind, Except.bind, Option.bind_some, hoverlap]
    rw [Path.walk, if_neg (by rw [hkend]; omega), hkstart]
    rfl
  · intro k hk hk' hone
    rw [hv.shows k hk hk' fun heq => absurd (hone heq) (by decide)]
    by_cases hzero : k = 0
    · rw [hzero, Function.update_self]
      rfl
    · rw [Function.update_of_ne hzero]
      exact (if_neg hzero).symm
  · simp only [hkstart]
    rfl
  · simp only [hkend]
    rfl
  · simp only [hkstart, hkend]
    decide

/-- **Bisecting** two texts that begin and end in different characters reads nothing outside of the
vectors and the texts. Wherever the clock makes it stop, it comes to its end, or it finds a point
between the corners of the grid. -/
theorem findSplit_spec (hlength1 : 2 ≤ text1.length) (hlength2 : 2 ≤ text2.length)
    (hlength : text1.length + text2.length + 1 < 2 ^ 31)
    (hfirst : text1.head? ≠ text2.head?) (hlast : text1.getLast? ≠ text2.getLast?) :
    Yields (Splits text1 text2) (findSplit text1 text2) := by
  obtain ⟨offset, hoffset⟩ : ∃ offset, (text1.length + text2.length + 1) / 2 = offset := ⟨_, rfl⟩
  obtain ⟨path, hpath, hunmoved, hshows, hkstart, hkend, hentry⟩ :=
    start_spec (show 2 ≤ offset by omega)
  have hcolumns : (2 : Int) ≤ text1.length := by omega
  have hrows : (2 : Int) ≤ text2.length := by omega
  have hlookFront : ∀ v delta, Unmoved v → overlapFront text1.length offset delta v 0 0 = none := by
    intro v delta hv
    unfold overlapFront
    split
    · cases hvisited : visited v (offset + delta - 0) with
      | none => rfl
      | some x =>
          have := hv.visited hvisited
          exact if_neg (by omega)
    · rfl
  have hlookReverse : ∀ v delta, Unmoved v →
      overlapReverse text1.length offset delta v 0 0 = none := by
    intro v delta hv
    unfold overlapReverse
    split
    · cases hvisited : visited v (offset + delta - 0) with
      | none => rfl
      | some x =>
          have := hv.visited hvisited
          exact if_neg (by omega)
    · rfl
  obtain ⟨after1, hwalk, hat, hunmoved1⟩ := first_walk hlength1 hlength2 hfirst (by omega)
    (overlapFront text1.length offset (text1.length - text2.length) path.v) (hlookFront _ _ hunmoved)
    hunmoved hshows hkstart hkend hentry
  have hlast' : text1.reverse.head? ≠ text2.reverse.head? := by
    rwa [List.head?_reverse, List.head?_reverse]
  obtain ⟨after2, hwalk', hat', -⟩ := first_walk (by rwa [List.length_reverse])
    (by rwa [List.length_reverse]) hlast' (show 2 ≤ offset by omega)
    (overlapReverse text1.length offset (text1.length - text2.length) after1.v)
    (hlookReverse _ _ hunmoved1) hunmoved hshows hkstart hkend hentry
  obtain ⟨left, hleft⟩ : ∃ left, offset = left + 1 := ⟨offset - 1, by omega⟩
  have hrounds : Yields (Splits text1 text2) (rounds text1 text2 offset left 1 after1 after2) := by
    by_cases heven : ((text1.length : Int) - text2.length) % 2 = 0
    · exact rounds_even hlength1 hlength2 hfirst hlast heven left 1 (by omega)
        (start_apart hcolumns hrows heven) rfl rfl hat hat'
    · exact rounds_odd hlength1 hlength2 hfirst hlast heven left 1 (by omega)
        (start_led hcolumns hrows heven) rfl rfl hat hat'
  rw [findSplit, if_neg (by omega), hoffset]
  simp only [hpath, untimed_ok, pure_bind]
  nth_rewrite 2 [hleft]
  rw [rounds]
  refine deadlinePassed_yields.bind fun passed _ => ?_
  cases passed with
  | true => exact Settles.pure splits_none
  | false =>
      simp only [Bool.false_eq_true, if_false, hwalk, hwalk', untimed_ok, pure_bind]
      exact hrounds

end First

end AnarchNet.DiffMatchPatch
