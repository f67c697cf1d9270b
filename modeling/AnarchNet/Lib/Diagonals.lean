import Mathlib.Data.Int.LeastGreatest

/-!
# Two searches on the diagonals of a grid

A search goes over a grid from one corner in rounds. A round visits every other diagonal of a range,
moves from the furthest point of a neighbouring diagonal to the right or down, and then perhaps some
way along the diagonal. Diagonals that run off the grid cut the range at its end. A second search
comes from the opposite corner and compares its points with those of the first one.

A wall is the first diagonal on which a search has reached a side of the grid. As long as no point
of one search meets the other one, its walls stay beyond the diagonals that the other one has
visited. So the ranges are never empty, and points off the grid are never compared.
-/

namespace Diagonals

/-- The column of the furthest point on each diagonal, and −1 if a diagonal was not visited. The row
of a point is its column minus its diagonal. -/
abbrev Table := Int → Int

/-- The rows in place of the columns. -/
def transpose (table : Table) : Table := fun k => if table (-k) = -1 then -1 else table (-k) + k

/-- What a diagonal is reached at: from below to the right, or from above down. -/
def reach (table : Table) (k : Int) : Int := max (table (k - 1) + 1) (table (k + 1))

/-- The diagonals that were visited. No point lies left of the grid or above it. -/
structure Spans (table : Table) (first last : Int) : Prop where
  first_le : first ≤ 0
  le_last : 0 ≤ last
  inside : ∀ k, first ≤ k → k ≤ last → 0 ≤ table k ∧ k ≤ table k
  outside : ∀ k, k < first ∨ last < k → table k = -1

/-- The first diagonal that has reached the last column. What lies behind it is nearer to the first
row. -/
structure Wall (columns : Int) (table : Table) (w : Int) : Prop where
  reaches : table w = columns
  below : ∀ k < w, table k < columns
  behind : ∀ k > w, table k - k < columns - w

/-- The diagonals that a round visits. -/
def Visited (round lo last k : Int) : Prop := lo ≤ k ∧ k ≤ last ∧ (k - round) % 2 = 0

/-- A round. A point that moves along its diagonal stays on the grid, and does not come to its
opposite corner. -/
structure Round (columns rows round lo last : Int) (table after : Table) : Prop where
  stays : ∀ k, ¬ Visited round lo last k → after k = table k
  moves : ∀ k, Visited round lo last k → after k = reach table k ∨
    reach table k < after k ∧ after k ≤ columns ∧ after k - k ≤ rows ∧
      after k + (after k - k) < columns + rows

/-- How the end of the range moves: on by one, or back because of a diagonal that ran off the
grid. -/
def Ends (columns round lo last hi hi' : Int) (after : Table) : Prop :=
  (last ≤ hi ∧ hi' ≤ last + 1) ∧ (last = hi ∧ hi' = hi + 1 ∨
    ∃ k, Visited round lo last k ∧ columns < after k ∧ k ≤ hi' + 1)

/-- One side of the grid: nothing has reached it and the range has its full length, or there is a
wall in the range. -/
def Side (columns delta round hi : Int) (table : Table) : Prop :=
  (∀ k, table k < columns) ∧ hi = round ∨
    ∃ w, Wall columns table w ∧ w + 1 ≤ hi ∧ (w + 1 - round) % 2 = 0 ∧ delta ≤ w

/-- A search before a round. -/
structure Search (columns rows round lo hi first last : Int) (table : Table) : Prop where
  spans : Spans table first last
  bounds : 1 - round ≤ first ∧ last ≤ round - 1
  range : first - 1 ≤ lo ∧ hi ≤ last + 1
  parity : (lo - round) % 2 = 0 ∧ (hi - round) % 2 = 0
  wide : 2 ≤ round → first ≤ -1 ∧ 1 ≤ last
  narrow : round = 1 → ∀ k, table k ≤ 0
  right : Side columns (columns - rows) round hi table
  bottom : Side rows (rows - columns) round (-lo) (transpose table)

/-- The walls of a search lie beyond the diagonals that the other one has visited. The diagonals of
the other one are counted from the opposite corner. -/
structure Beyond (columns rows first last : Int) (table : Table) : Prop where
  right : ∀ w, Wall columns table w → columns - rows - w < first
  bottom : ∀ j, Wall rows (transpose table) j → rows - columns - j < -last

/-! ## Rows and columns change places -/

section Flips

variable {columns rows round lo hi last hi' first : Int} {table after : Table} {k w : Int}

theorem transpose_of_visited (h : table k ≠ -1) : transpose table (-k) = table k - k := by
  rw [transpose, neg_neg, if_neg h]
  omega

theorem transpose_of_not_visited (h : table k = -1) : transpose table (-k) = -1 := by
  rw [transpose, neg_neg, if_pos h]

theorem Spans.visited (h : Spans table first last) (hk : first ≤ k) (hk' : k ≤ last) :
    table k ≠ -1 := by
  have := (h.inside k hk hk').1
  omega

theorem Spans.of_visited (h : Spans table first last) (hk : table k ≠ -1) :
    first ≤ k ∧ k ≤ last := by
  by_contra hout
  exact hk (h.outside k (by omega))

theorem Spans.neg_one_le (h : Spans table first last) (k : Int) : -1 ≤ table k := by
  by_cases hk : table k = -1
  · omega
  · have hin := h.of_visited hk
    have := (h.inside k hin.1 hin.2).1
    omega

theorem Spans.flip (h : Spans table first last) : Spans (transpose table) (-last) (-first) where
  first_le := by have := h.le_last; omega
  le_last := by have := h.first_le; omega
  inside := by
    intro j hj hj'
    have hin := h.inside (-j) (by omega) (by omega)
    rw [transpose, if_neg (by omega)]
    omega
  outside := by
    intro j hj
    rw [transpose, if_pos (h.outside (-j) (by omega))]

theorem transpose_transpose (h : Spans table first last) : transpose (transpose table) = table := by
  funext k
  by_cases hk : table k = -1
  · rw [transpose, if_pos (transpose_of_not_visited hk), hk]
  · have hin := h.of_visited hk
    have := h.inside k hin.1 hin.2
    rw [transpose, transpose_of_visited hk, if_neg (by omega)]
    omega

/-- A diagonal at the border of the visited ones is reached in the same way. -/
theorem reach_transpose (h : Spans table first last) (hk : first - 1 ≤ k) (hk' : k ≤ last + 1) :
    reach (transpose table) (-k) = reach table k - k := by
  have hfirst := h.first_le
  have hlast := h.le_last
  have hleft : transpose table (-k - 1) =
      if table (k + 1) = -1 then -1 else table (k + 1) - (k + 1) := by
    rw [transpose, show -(-k - 1) = k + 1 by omega]
    split <;> omega
  have hright : transpose table (-k + 1) =
      if table (k - 1) = -1 then -1 else table (k - 1) - (k - 1) := by
    rw [transpose, show -(-k + 1) = k - 1 by omega]
    split <;> omega
  have hbefore := h.inside (k - 1)
  have hbehind := h.inside (k + 1)
  have hout := h.outside (k - 1)
  have hout' := h.outside (k + 1)
  rw [reach, reach, hleft, hright]
  split <;> split <;> omega

theorem Visited.flip (h : Visited round lo last k) : Visited round (-last) (-lo) (-k) := by
  obtain ⟨hlo, hlast, hparity⟩ := h
  exact ⟨by omega, by omega, by omega⟩

/-- A diagonal at the border of the visited ones is reached on the grid or right of it or below
it. -/
theorem Spans.le_reach (h : Spans table first last) (hk : first - 1 ≤ k ∧ k ≤ last + 1) :
    0 ≤ reach table k ∧ k ≤ reach table k := by
  have hbefore := h.inside (k - 1)
  have hbehind := h.inside (k + 1)
  have hleast := h.neg_one_le (k - 1)
  have := h.first_le
  have := h.le_last
  rw [reach]
  omega

/-- So is what a round comes to. -/
theorem Round.visited (h : Round columns rows round lo last table after)
    {front back : Int} (hspans : Spans table front back)
    (hk : Visited round lo last k) (hrange : front - 1 ≤ k ∧ k ≤ back + 1) :
    0 ≤ after k ∧ k ≤ after k := by
  have hreach := hspans.le_reach hrange
  have := h.moves k hk
  omega

theorem Round.flip (h : Round columns rows round lo last table after) {front back : Int}
    (hspans : Spans table front back) (hlo : front - 1 ≤ lo) (hlast : last ≤ back + 1) :
    Round rows columns round (-last) (-lo) (transpose table) (transpose after) where
  stays := by
    intro j hj
    have hstay := h.stays (-j) (fun hvisited => hj (by simpa using hvisited.flip))
    rw [transpose, transpose, hstay]
  moves := by
    intro j hj
    have hvisited : Visited round lo last (-j) := by simpa using hj.flip
    have hrange : front - 1 ≤ -j ∧ -j ≤ back + 1 := by
      have := hvisited.1
      have := hvisited.2.1
      omega
    have hafter := h.visited hspans hvisited hrange
    have hmoves := h.moves (-j) hvisited
    have hreach := reach_transpose hspans hrange.1 hrange.2
    have hflip := transpose_of_visited (show after (-j) ≠ -1 by omega)
    rw [neg_neg] at hreach hflip
    rw [hflip, hreach]
    omega

theorem Search.flip (h : Search columns rows round lo hi first last table) :
    Search rows columns round (-hi) (-lo) (-last) (-first) (transpose table) where
  spans := h.spans.flip
  bounds := by have := h.bounds; omega
  range := by have := h.range; omega
  parity := by have := h.parity; omega
  wide := by intro hround; have := h.wide hround; omega
  narrow := by
    intro hround k
    have hbounds := h.bounds
    by_cases hk : k = 0
    · subst hk
      have := h.narrow hround 0
      rw [transpose, neg_zero]
      split <;> omega
    · have := h.spans.flip.outside k (by omega)
      omega
  right := h.bottom
  bottom := by
    rw [transpose_transpose h.spans, neg_neg]
    exact h.right

theorem Beyond.flip (h : Beyond columns rows first last table) {front back : Int}
    (hspans : Spans table front back) : Beyond rows columns (-last) (-first) (transpose table) where
  right := h.bottom
  bottom := by
    rw [transpose_transpose hspans, neg_neg]
    exact h.right

end Flips

/-! ## A round of one search -/

section Rounds

variable {columns rows round lo hi first last front back lo' hi' : Int} {table after : Table}
  {k w : Int}

/-- Diagonals before a wall have not reached the last column. -/
theorem Wall.le_of_le (h : Wall columns table w) (hk : columns ≤ table k) : w ≤ k := by
  by_contra hless
  have := h.below k (by omega)
  omega

/-- There is at most one wall. -/
theorem Wall.unique {w' : Int} (h : Wall columns table w) (h' : Wall columns table w') : w = w' :=
  le_antisymm (h.le_of_le h'.reaches.ge) (h'.le_of_le h.reaches.ge)

/-- A diagonal that reached the last column lies on a wall or behind it. -/
theorem Side.wall {delta : Int} (h : Side columns delta round hi table) (hk : columns ≤ table k) :
    ∃ w, Wall columns table w ∧ w ≤ k ∧ w + 1 ≤ hi ∧ (w + 1 - round) % 2 = 0 ∧ delta ≤ w := by
  rcases h with ⟨hclear, -⟩ | ⟨w, hwall, hrest⟩
  · have := hclear k
    omega
  · exact ⟨w, hwall, hwall.le_of_le hk, hrest⟩

/-- A diagonal runs off the grid behind a wall. -/
theorem Search.runs_off (h : Search columns rows round lo hi first last table)
    (hround : Round columns rows round front back table after) (hk : Visited round front back k)
    (hoff : columns < after k) : ∃ w, Wall columns table w ∧ w + 1 ≤ k := by
  have hreach : columns < table (k + 1) ∨ columns ≤ table (k - 1) := by
    have hmoves := hround.moves k hk
    have : after k = reach table k := by omega
    rw [reach] at this
    omega
  have hparity := hk.2.2
  rcases hreach with habove | hbefore
  · obtain ⟨w, hwall, hle, -, hw, -⟩ := h.right.wall habove.le
    have hne : w ≠ k + 1 := by
      intro heq
      have := hwall.reaches
      rw [heq] at this
      omega
    exact ⟨w, hwall, by omega⟩
  · obtain ⟨w, hwall, hle, -⟩ := h.right.wall hbefore
    exact ⟨w, hwall, by omega⟩

/-- The range begins before a wall. -/
theorem Search.lo_le_wall (h : Search columns rows round lo hi first last table)
    (hcolumns : 0 ≤ columns) (hwall : Wall columns table w) : lo + 1 ≤ w := by
  have hreaches := hwall.reaches
  have hin := h.spans.of_visited (show table w ≠ -1 by omega)
  have hbounds := h.bounds
  obtain ⟨w', hwall', hle, -, -, hdelta⟩ := h.right.wall hreaches.ge
  rcases h.bottom with ⟨-, hlo⟩ | ⟨j, -, hj, -, hdelta'⟩
  · omega
  · omega

/-- So the range is not empty. -/
theorem Search.lo_le_hi (h : Search columns rows round lo hi first last table)
    (hcolumns : 0 ≤ columns) (hrows : 0 ≤ rows) : lo ≤ hi := by
  have hbounds := h.bounds
  have hfirst := h.spans.first_le
  rcases h.right with ⟨-, hhi⟩ | ⟨w, hwall, hw, -⟩
  · rcases h.bottom with ⟨-, hlo⟩ | ⟨j, hwall, hj, -, hdelta⟩
    · omega
    · have := h.flip.lo_le_wall hrows hwall
      omega
  · have := h.lo_le_wall hcolumns hwall
    omega

/-- A round comes behind a wall, and so it visits the diagonal before it. -/
theorem Search.wall_lt_last (h : Search columns rows round lo hi first last table)
    (hround : Round columns rows round front back table after)
    (hends : Ends columns round front back hi hi' after) (hwall : Wall columns table w) :
    w + 1 ≤ back := by
  rcases hends.2 with ⟨hlast, -⟩ | ⟨k, hk, hoff, -⟩
  · obtain ⟨w', hwall', -, hhi, -⟩ := h.right.wall hwall.reaches.ge
    rw [hwall.unique hwall', hlast]
    exact hhi
  · obtain ⟨w', hwall', hle⟩ := h.runs_off hround hk hoff
    rw [hwall.unique hwall']
    exact hle.trans hk.2.1

/-- The diagonal before a wall comes to the wall. -/
theorem Search.visits_wall (h : Search columns rows round lo hi first last table)
    (hfront : ∀ w, Wall columns table w → front + 1 ≤ w)
    (hround : Round columns rows round front back table after)
    (hends : Ends columns round front back hi hi' after) (hwall : Wall columns table w) :
    Visited round front back (w - 1) ∧ columns ≤ after (w - 1) := by
  have hlo := hfront w hwall
  have hlast := h.wall_lt_last hround hends hwall
  obtain ⟨w', hwall', -, -, hparity, -⟩ := h.right.wall hwall.reaches.ge
  rw [← hwall.unique hwall'] at hparity
  have hvisited : Visited round front back (w - 1) := ⟨by omega, by omega, by omega⟩
  refine ⟨hvisited, ?_⟩
  have hmoves := hround.moves (w - 1) hvisited
  have hreaches := hwall.reaches
  rw [reach, sub_add_cancel] at hmoves
  omega

/-- The first diagonal of a round that has reached the last column is the new wall, if the old walls
lie beyond the other corner of the grid. -/
theorem Search.wall_of_least (h : Search columns rows round lo hi first last table)
    (hcolumns : 0 < columns) (hround : Round columns rows round front back table after)
    (hright : ∀ w₀, Wall columns table w₀ → columns - rows < w₀ ∧ w + 1 ≤ w₀)
    (hbottom : ∀ j, Wall rows (transpose table) j → rows - columns < j)
    (hw : Visited round front back w) (hge : columns ≤ after w)
    (hleast : ∀ k, Visited round front back k → columns ≤ after k → w ≤ k) :
    Wall columns after w ∧ columns - rows ≤ w := by
  -- what was reached before lies behind the new wall
  have hold : ∀ k, columns ≤ table k → w + 1 = k ∧ table k = columns ∨
      w + 1 < k ∧ table k - k < columns - (w + 1) := by
    intro k hk
    obtain ⟨w₀, hwall, hle, -⟩ := h.right.wall hk
    have hless := (hright w₀ hwall).2
    by_cases heq : k = w₀
    · have := hwall.reaches
      rw [heq]
      omega
    · have := hwall.behind k (by omega)
      omega
  have hmoves := hround.moves w hw
  have hreaches : after w = columns := by
    rcases hmoves with hreach | hslides
    · have habove := hold (w + 1)
      have hbefore := hold (w - 1)
      rw [reach] at hreach
      omega
    · omega
  refine ⟨⟨hreaches, ?_, ?_⟩, ?_⟩
  · intro k hk
    by_cases hvisited : Visited round front back k
    · by_contra hge'
      have := hleast k hvisited (by omega)
      omega
    · rw [hround.stays k hvisited]
      have := hold k
      omega
  · intro k hk
    by_cases hvisited : Visited round front back k
    · have hparity := hvisited.2.2
      have hparity' := hw.2.2
      have habove := hold (k + 1)
      have hbefore := hold (k - 1)
      have hmoves' := hround.moves k hvisited
      rw [reach] at hmoves'
      omega
    · rw [hround.stays k hvisited]
      have := hold k
      omega
  · -- the wall is on the grid
    rcases hmoves with hreach | hslides
    · have habove := hold (w + 1)
      have hbefore := hold (w - 1)
      rw [hreaches, reach] at hreach
      by_cases heq : columns ≤ table (w + 1)
      · obtain ⟨w₀, hwall, hle, -⟩ := h.right.wall heq
        have := hright w₀ hwall
        omega
      · have hpoint : table (w - 1) = columns - 1 := by omega
        by_contra hless
        have hflip : transpose table (-(w - 1)) = columns - w := by
          rw [transpose_of_visited (show table (w - 1) ≠ -1 by omega), hpoint]
          omega
        obtain ⟨j, hwall, hle, -⟩ := h.bottom.wall
          (show rows ≤ transpose table (-(w - 1)) by omega)
        have hdelta := hbottom j hwall
        by_cases heq' : j = -(w - 1)
        · have := hwall.reaches
          rw [heq'] at this
          omega
        · have := hwall.behind (-(w - 1)) (by omega)
          omega
    · omega

/-- A wall is new after each round, and so is the end of the range. -/
theorem Search.side (h : Search columns rows round lo hi first last table)
    (hcolumns : 0 < columns) (hfront : ∀ w, Wall columns table w → front + 1 ≤ w)
    (hround : Round columns rows round front back table after)
    (hends : Ends columns round front back hi hi' after)
    (hright : ∀ w, Wall columns table w → columns - rows < w)
    (hbottom : ∀ j, Wall rows (transpose table) j → rows - columns < j) :
    Side columns (columns - rows) (round + 1) hi' after ∧
      ∀ w, Wall columns after w → Visited round front back w := by
  by_cases hreached : ∃ k, Visited round front back k ∧ columns ≤ after k
  · obtain ⟨w, ⟨hw, hge⟩, hleast⟩ := Int.exists_least_of_bdd
      ⟨front, fun k (hk : Visited round front back k ∧ columns ≤ after k) => hk.1.1⟩ hreached
    have hstep : ∀ w₀, Wall columns table w₀ → columns - rows < w₀ ∧ w + 1 ≤ w₀ := by
      intro w₀ hwall
      have := hleast _ (h.visits_wall hfront hround hends hwall)
      exact ⟨hright w₀ hwall, by omega⟩
    obtain ⟨hwall, hdelta⟩ := h.wall_of_least hcolumns hround hstep hbottom hw hge
      (fun k hk hge' => hleast k ⟨hk, hge'⟩)
    refine ⟨Or.inr ⟨w, hwall, ?_, ?_, hdelta⟩, ?_⟩
    · -- the range ends behind the wall
      rcases hends.2 with ⟨hlast, hhi⟩ | ⟨k, hk, hoff, hle⟩
      · have := hw.2.1
        omega
      · have hwk := hleast k ⟨hk, hoff.le⟩
        have hreaches := hwall.reaches
        have hne : w ≠ k := by
          intro heq
          rw [heq] at hreaches
          omega
        have := hw.2.2
        have := hk.2.2
        omega
    · have := hw.2.2
      omega
    · intro w' hwall'
      rw [hwall'.unique hwall]
      exact hw
  · -- nothing was reached in this round, and so nothing was before
    have hclear : ∀ k, table k < columns := by
      intro k
      by_contra hk
      obtain ⟨w, hwall, -⟩ := h.right.wall (not_lt.1 hk)
      exact hreached ⟨_, h.visits_wall hfront hround hends hwall⟩
    have hafter : ∀ k, after k < columns := by
      intro k
      by_cases hvisited : Visited round front back k
      · by_contra hk
        exact hreached ⟨k, hvisited, not_lt.1 hk⟩
      · rw [hround.stays k hvisited]
        exact hclear k
    refine ⟨Or.inl ⟨hafter, ?_⟩, ?_⟩
    · have hhi : hi = round := by
        rcases h.right with ⟨-, hhi⟩ | ⟨w, hwall, -⟩
        · exact hhi
        · have := hclear w
          have := hwall.reaches
          omega
      rcases hends.2 with ⟨-, hhi'⟩ | ⟨k, -, hoff, -⟩
      · omega
      · have := hafter k
        omega
    · intro w hwall
      have := hafter w
      have := hwall.reaches
      omega

/-- A round does not end before the wall at the other side. -/
theorem Search.last_ge_wall (h : Search columns rows round lo hi first last table)
    (hrows : 0 ≤ rows) (hround : Round columns rows round front back table after)
    (hends : Ends columns round front back hi hi' after) {j : Int}
    (hwall : Wall rows (transpose table) j) : -back + 1 ≤ j := by
  have hreaches := hwall.reaches
  have hin := h.spans.flip.of_visited (show transpose table j ≠ -1 by omega)
  have hbounds := h.bounds
  rcases h.right with ⟨hclear, hhi⟩ | ⟨w, hwall', -, -, hdelta⟩
  · rcases hends.2 with ⟨hlast, -⟩ | ⟨k, hk, hoff, -⟩
    · omega
    · obtain ⟨w, hwall', -⟩ := h.runs_off hround hk hoff
      have := hclear w
      have := hwall'.reaches
      omega
  · have hlast := h.wall_lt_last hround hends hwall'
    obtain ⟨j', hwall'', -, -, -, hdelta'⟩ := h.bottom.wall hreaches.ge
    rw [hwall''.unique hwall] at hdelta'
    omega

/-- **A round** leads from a search to a search, with new walls. -/
theorem Search.step (h : Search columns rows round lo hi first last table)
    (hcolumns : 2 ≤ columns) (hrows : 2 ≤ rows)
    (hround : Round columns rows round front back table after)
    (hends : Ends columns round front back hi hi' after)
    (hends' : Ends rows round (-back) (-front) (-lo) (-lo') (transpose after))
    (hparity : (lo' - (round + 1)) % 2 = 0 ∧ (hi' - (round + 1)) % 2 = 0)
    (hbeyond : Beyond columns rows 0 0 table) :
    Search columns rows (round + 1) lo' hi' (min first front) (max last back) after ∧
      (∀ w, Wall columns after w → Visited round front back w) ∧
        ∀ j, Wall rows (transpose after) j → Visited round (-back) (-front) j := by
  have hrange := h.range
  have hbounds := h.bounds
  have hparity' := h.parity
  have hfirst := h.spans.first_le
  have hlast := h.spans.le_last
  have hlo := h.lo_le_hi (by omega) (by omega)
  have hinside : (back ≤ hi ∧ hi' ≤ back + 1) ∧ lo ≤ front ∧ front - 1 ≤ lo' := by
    have := hends.1
    have := hends'.1
    omega
  have hright : ∀ w, Wall columns table w → columns - rows < w := by
    intro w hwall
    have := hbeyond.right w hwall
    omega
  have hbottom : ∀ j, Wall rows (transpose table) j → rows - columns < j := by
    intro j hwall
    have := hbeyond.bottom j hwall
    omega
  have hflip := hround.flip h.spans (by omega) (by omega)
  have htwice := transpose_transpose h.spans
  have hfront : ∀ w, Wall columns table w → front + 1 ≤ w := by
    intro w hwall
    rw [← htwice] at hwall
    have := h.flip.last_ge_wall (by omega) hflip hends' hwall
    omega
  obtain ⟨hside, hwalls⟩ := h.side (by omega) hfront hround hends hright hbottom
  obtain ⟨hside', hwalls'⟩ := h.flip.side (by omega)
    (fun j => h.last_ge_wall (by omega) hround hends) hflip hends' hbottom (by
      rw [htwice]
      exact hright)
  have horder : front ≤ back := by
    rcases hends.2 with ⟨heq, -⟩ | ⟨k, hk, -⟩
    · rcases hends'.2 with ⟨heq', -⟩ | ⟨k, hk, -⟩
      · omega
      · have := hk.1.trans hk.2.1
        omega
    · exact hk.1.trans hk.2.1
  refine ⟨⟨⟨by omega, by omega, ?_, ?_⟩, by omega, by omega, hparity, ?_, ?_, hside, hside'⟩,
    hwalls, hwalls'⟩
  · intro k hk hk'
    by_cases hvisited : Visited round front back k
    · have := hvisited.1
      have := hvisited.2.1
      exact hround.visited h.spans hvisited (by omega)
    · -- the other diagonals were visited before
      rw [hround.stays k hvisited]
      have hin : first ≤ k ∧ k ≤ last := by
        by_contra hout
        exact hvisited ⟨by omega, by omega, by omega⟩
      exact h.spans.inside k hin.1 hin.2
  · intro k hk
    rw [hround.stays k (fun hvisited => by
      have := hvisited.1
      have := hvisited.2.1
      omega)]
    exact h.spans.outside k (by omega)
  · intro htwo
    by_cases hone : round = 1
    · -- nothing runs off the grid in the first round
      have hclear := h.narrow hone
      have hclear' := h.flip.narrow hone
      have hno : ∀ w, ¬ Wall columns table w := by
        intro w hwall
        have := hclear w
        have := hwall.reaches
        omega
      have hno' : ∀ j, ¬ Wall rows (transpose table) j := by
        intro j hwall
        have := hclear' j
        have := hwall.reaches
        omega
      have hhi : back = 1 := by
        rcases h.right with ⟨-, hhi⟩ | ⟨w, hwall, -⟩
        · rcases hends.2 with ⟨heq, -⟩ | ⟨k, hk, hoff, -⟩
          · omega
          · obtain ⟨w, hwall, -⟩ := h.runs_off hround hk hoff
            exact absurd hwall (hno w)
        · exact absurd hwall (hno w)
      have hlo : front = -1 := by
        rcases h.bottom with ⟨-, hlo⟩ | ⟨j, hwall, -⟩
        · rcases hends'.2 with ⟨heq, -⟩ | ⟨k, hk, hoff, -⟩
          · omega
          · obtain ⟨j, hwall, -⟩ := h.flip.runs_off hflip hk hoff
            exact absurd hwall (hno' j)
        · exact absurd hwall (hno' j)
      omega
    · have := h.wide (by omega)
      omega
  · intro hone
    omega

end Rounds

/-! ## Two searches -/

/-- What a search has come to before a round. -/
structure State where
  round : Int
  lo : Int
  hi : Int
  first : Int
  last : Int
  table : Table

/-- The state with the rows in place of the columns. -/
def State.flip (s : State) : State where
  round := s.round
  lo := -s.hi
  hi := -s.lo
  first := -s.last
  last := -s.first
  table := transpose s.table

/-- The state after a round over some diagonals, with a new range. -/
def State.next (s : State) (front back lo hi : Int) (table : Table) : State where
  round := s.round + 1
  lo := lo
  hi := hi
  first := min s.first front
  last := max s.last back
  table := table

/-- The state is that of a search. -/
abbrev State.Valid (columns rows : Int) (s : State) : Prop :=
  Search columns rows s.round s.lo s.hi s.first s.last s.table

/-- A whole round over some diagonals of the range. -/
structure Advance (columns rows : Int) (s t : State) (front back : Int) : Prop where
  round : t.round = s.round + 1
  first : t.first = min s.first front
  last : t.last = max s.last back
  moves : Round columns rows s.round front back s.table t.table
  right : Ends columns s.round front back s.hi t.hi t.table
  bottom : Ends rows s.round (-back) (-front) (-s.lo) (-t.lo) (transpose t.table)
  parity : (t.lo - t.round) % 2 = 0 ∧ (t.hi - t.round) % 2 = 0

/-- Two searches before a round of the first one. -/
structure Apart (columns rows : Int) (s s' : State) : Prop where
  valid : s.Valid columns rows
  valid' : s'.Valid columns rows
  parity : (columns - rows - s.round - s'.round) % 2 = 0
  beyond : Beyond columns rows s'.first s'.last s.table
  beyond' : Beyond columns rows s.first s.last s'.table
  wide : s.round = 1 ∨ 2 ≤ s'.round

/-- Two searches before a round of the second one, which compares its points with those of the first
one. Where the first one has left the grid, no point is compared, and it has not come to the
opposite corner. -/
structure Led (columns rows : Int) (s s' : State) : Prop where
  valid : s.Valid columns rows
  valid' : s'.Valid columns rows
  parity : (columns - rows + 1 - s.round - s'.round) % 2 = 0
  beyond' : Beyond columns rows s.first s.last s'.table
  right : ∀ k, columns < s.table k → columns - rows - k < s'.first - 1
  bottom : ∀ k, rows < transpose s.table k → rows - columns - k < -s'.last - 1
  short : s.table (columns - rows) < columns
  wide : s'.round = 1 ∨ 2 ≤ s.round

/-- The points on the same diagonal of the grid do not meet. -/
def Misses (columns rows : Int) (s : State) (table' : Table) (k : Int) : Prop :=
  table' k ≤ columns → table' k - k ≤ rows → s.table (columns - rows - k) ≠ -1 →
    s.table (columns - rows - k) + table' k < columns

section Pairs

variable {columns rows front back first last k w : Int} {s s' t t' : State}

theorem Beyond.mono {first' last' : Int} {table : Table} (h : Beyond columns rows first last table)
    (hfirst : first ≤ first') (hlast : last' ≤ last) : Beyond columns rows first' last' table where
  right := by
    intro w hwall
    have := h.right w hwall
    omega
  bottom := by
    intro j hwall
    have := h.bottom j hwall
    omega

/-- A round in which the walls lie beyond the other corner. -/
theorem Advance.valid (h : Advance columns rows s t front back) (hvalid : s.Valid columns rows)
    (hcolumns : 2 ≤ columns) (hrows : 2 ≤ rows) (hbeyond : Beyond columns rows 0 0 s.table) :
    t.Valid columns rows ∧ (∀ w, Wall columns t.table w → Visited s.round front back w) ∧
      ∀ j, Wall rows (transpose t.table) j → Visited s.round (-back) (-front) j := by
  have hparity := h.parity
  rw [h.round] at hparity
  rw [State.Valid, h.round, h.first, h.last]
  exact hvalid.step hcolumns hrows h.moves h.right h.bottom hparity hbeyond

/-- The range of a round. -/
theorem Advance.inside (h : Advance columns rows s t front back) : s.lo ≤ front ∧ back ≤ s.hi := by
  have := h.right.1
  have := h.bottom.1
  omega

theorem Advance.flip (h : Advance columns rows s t front back) (hvalid : s.Valid columns rows)
    (hvalid' : t.Valid columns rows) :
    Advance rows columns s.flip t.flip (-back) (-front) where
  round := h.round
  first := by
    have := h.last
    simp only [State.flip]
    omega
  last := by
    have := h.first
    simp only [State.flip]
    omega
  moves := by
    have := h.inside
    have := hvalid.range
    exact h.moves.flip hvalid.spans (by omega) (by omega)
  right := h.bottom
  bottom := by
    simp only [State.flip, neg_neg]
    rw [transpose_transpose hvalid'.spans]
    exact h.right
  parity := by
    have := h.parity
    simp only [State.flip]
    omega

theorem Led.flip (h : Led columns rows s s') (hrows : 0 ≤ rows) :
    Led rows columns s.flip s'.flip where
  valid := h.valid.flip
  valid' := h.valid'.flip
  parity := by
    have := h.parity
    simp only [State.flip]
    omega
  beyond' := h.beyond'.flip h.valid'.spans
  right := h.bottom
  bottom := by
    intro k hk
    simp only [State.flip, transpose_transpose h.valid.spans] at hk ⊢
    have := h.right k hk
    omega
  short := by
    have hshort := h.short
    simp only [State.flip]
    rw [show rows - columns = -(columns - rows) by omega]
    by_cases hvisited : s.table (columns - rows) = -1
    · rw [transpose_of_not_visited hvisited]
      omega
    · rw [transpose_of_visited hvisited]
      omega
  wide := h.wide

theorem Misses.flip {table' : Table} (h : Misses columns rows s table' k) (hk : table' k ≠ -1) :
    Misses rows columns s.flip (transpose table') (-k) := by
  intro hrow hcolumn hvisited
  have heq := transpose_of_visited hk
  have hindex : rows - columns - -k = -(columns - rows - k) := by omega
  simp only [State.flip, hindex] at hvisited ⊢
  have hother : s.table (columns - rows - k) ≠ -1 := fun hnot =>
    hvisited (transpose_of_not_visited hnot)
  have := h (by omega) (by omega) hother
  rw [transpose_of_visited hother, heq]
  omega

/-- The second search comes to the diagonals that the first one has visited. -/
theorem Led.le_back (h : Led columns rows s s') (hmoves : Advance columns rows s' t' front back)
    (hw : s.first ≤ w) (hround : columns - rows - w ≤ s'.round) : columns - rows - w ≤ back := by
  rcases hmoves.right.2 with ⟨heq, -⟩ | ⟨k, hk, hoff, -⟩
  · rcases h.valid'.right with ⟨-, hhi⟩ | ⟨u, hwall, hhi, -⟩
    · omega
    · have := h.beyond'.right u hwall
      omega
  · obtain ⟨u, hwall, hle⟩ := h.valid'.runs_off hmoves.moves hk hoff
    have := h.beyond'.right u hwall
    have := hk.2.1
    omega

/-- There it is not right of the grid. -/
theorem Led.le_columns (h : Led columns rows s s') (hmoves : Advance columns rows s' t' front back)
    (hw : s.first ≤ w) (hvisited : Visited s'.round front back (columns - rows - w)) :
    t'.table (columns - rows - w) ≤ columns := by
  by_contra hoff
  obtain ⟨u, hwall, hle⟩ := h.valid'.runs_off hmoves.moves hvisited (not_le.1 hoff)
  have := h.beyond'.right u hwall
  omega

/-- A wall of the second search lies beyond what the first one has visited, or there the points of
both would meet. -/
theorem Led.wall_beyond (h : Led columns rows s s') (hvalid : t'.Valid columns rows)
    (hmisses : ∀ k, Visited s'.round front back k → Misses columns rows s t'.table k)
    (hwalls : ∀ w, Wall columns t'.table w → Visited s'.round front back w)
    (hwall : Wall columns t'.table w) : columns - rows - w < s.first := by
  have hreaches := hwall.reaches
  obtain ⟨w', hwall', -, -, -, hdelta⟩ := hvalid.right.wall hreaches.ge
  rw [hwall'.unique hwall] at hdelta
  have hlast := h.valid.spans.le_last
  by_contra hle
  have hin := h.valid.spans.inside (columns - rows - w) (by omega) (by omega)
  have := hmisses w (hwalls w hwall) (by omega) (by omega) (by omega)
  omega

/-- So does a wall of the first search. -/
theorem Led.beyond_wall (h : Led columns rows s s') (hcolumns : 0 ≤ columns) (hrows : 0 ≤ rows)
    (hvalid : t'.Valid columns rows) (hmoves : Advance columns rows s' t' front back)
    (hmisses : ∀ k, Visited s'.round front back k → Misses columns rows s t'.table k)
    (hwall : Wall columns s.table w) : columns - rows - w < t'.first := by
  have hreaches := hwall.reaches
  have hpos := hcolumns.trans_eq hreaches.symm
  obtain ⟨w', hwall', -, -, hparity, hdelta⟩ := h.valid.right.wall hreaches.ge
  rw [hwall'.unique hwall] at hdelta hparity
  have hin := h.valid.spans.of_visited (show s.table w ≠ -1 by omega)
  have hbounds := h.valid'.bounds
  have hfirst := h.valid'.spans.first_le
  have hflips := h.flip hrows
  have hflips' := hmoves.flip h.valid' hvalid
  have hflipped : rows - columns - -w = -(columns - rows - w) := by omega
  by_contra hle
  rw [hmoves.first] at hle
  have hround : - s'.round ≤ columns - rows - w := by
    have := h.valid'.range
    have := hmoves.inside
    omega
  have hback := h.le_back hmoves hin.1 (by omega)
  have hfront := hflips.le_back (w := -w) hflips' (by simp only [State.flip]; omega)
    (by simp only [State.flip]; omega)
  have hvisited : Visited s'.round front back (columns - rows - w) := by
    have := h.parity
    exact ⟨by omega, by omega, by omega⟩
  have hcolumn := h.le_columns hmoves hin.1 hvisited
  have hrow := hflips.le_columns (w := -w) hflips' (by simp only [State.flip]; omega) (by
    rw [hflipped]
    exact hvisited.flip)
  have hpoint := hmoves.moves.visited h.valid'.spans hvisited (by
    have := h.valid'.range
    have := hmoves.inside
    omega)
  rw [hflipped] at hrow
  simp only [State.flip] at hrow
  rw [transpose_of_visited (by omega)] at hrow
  have hother : columns - rows - (columns - rows - w) = w := by omega
  have := hmisses _ hvisited hcolumn (by omega) (by rw [hother]; omega)
  rw [hother] at this
  omega

/-- **A round of the second search** that meets no point of the first one. -/
theorem Led.follow (h : Led columns rows s s') (hcolumns : 2 ≤ columns) (hrows : 2 ≤ rows)
    (hmoves : Advance columns rows s' t' front back)
    (hmisses : ∀ k, Visited s'.round front back k → Misses columns rows s t'.table k) :
    Apart columns rows s t' := by
  obtain ⟨hvalid, hwalls, hwalls'⟩ := hmoves.valid h.valid' hcolumns hrows
    (h.beyond'.mono h.valid.spans.first_le h.valid.spans.le_last)
  have hflips := h.flip (by omega : 0 ≤ rows)
  have hflips' := hmoves.flip h.valid' hvalid
  have hmisses' : ∀ k, Visited s'.flip.round (-back) (-front) k →
      Misses rows columns s.flip t'.flip.table k := by
    intro k hk
    have hvisited : Visited s'.round (- -front) (- -back) (-k) := hk.flip
    rw [neg_neg, neg_neg] at hvisited
    have hpoint := hmoves.moves.visited h.valid'.spans hvisited (by
      have := hvisited.1
      have := hvisited.2.1
      have := h.valid'.range
      have := hmoves.inside
      omega)
    have := (hmisses (-k) hvisited).flip (by omega)
    rwa [neg_neg] at this
  have hround := h.valid'.bounds
  have hfirst := h.valid'.spans.first_le
  have hlast := h.valid'.spans.le_last
  refine ⟨h.valid, hvalid, ?_, ⟨?_, ?_⟩, ⟨?_, ?_⟩, ?_⟩
  · have := h.parity
    have := hmoves.round
    omega
  · exact fun w => h.beyond_wall (by omega) (by omega) hvalid hmoves hmisses
  · exact fun j => hflips.beyond_wall (by omega) (by omega) hvalid.flip hflips' hmisses'
  · exact fun w => h.wall_beyond hvalid hmisses hwalls
  · exact fun j => hflips.wall_beyond hvalid.flip hmisses' hwalls'
  · have := hmoves.round
    omega

/-- A search does not come to the opposite corner in a round, as long as its walls lie beyond
diagonals that the other one has visited around its own corner. -/
theorem Search.not_corner {round lo hi : Int} {first' last' : Int} {table after : Table}
    (h : Search columns rows round lo hi first last table) (hcolumns : 2 ≤ columns)
    (hround : Round columns rows round front back table after)
    (hbeyond : Beyond columns rows first' last' table)
    (hwide : round = 1 ∨ first' ≤ -1 ∧ 1 ≤ last')
    (hvisited : Visited round front back (columns - rows))
    (hpoint : after (columns - rows) = columns) : False := by
  have hreach : reach table (columns - rows) = columns := by
    have := hround.moves _ hvisited
    omega
  rw [reach] at hreach
  rcases hwide with hone | ⟨hfirst, hlast⟩
  · have := h.narrow hone (columns - rows - 1)
    have := h.narrow hone (columns - rows + 1)
    omega
  · by_cases habove : columns ≤ table (columns - rows + 1)
    · obtain ⟨w, hwall, hle, -⟩ := h.right.wall habove
      have := hbeyond.right w hwall
      omega
    · have hbefore : table (columns - rows - 1) = columns - 1 := by omega
      have hflip : transpose table (-(columns - rows - 1)) = rows := by
        rw [transpose_of_visited (show table (columns - rows - 1) ≠ -1 by omega), hbefore]
        omega
      obtain ⟨j, hwall, hle, -⟩ := h.bottom.wall hflip.ge
      have := hbeyond.bottom j hwall
      omega

/-- Where the first search runs off the grid, the second one does not come to. -/
theorem Advance.far {first' last' : Int} (h : Advance columns rows s t front back)
    (hvalid : s.Valid columns rows) (hbeyond : Beyond columns rows first' last' s.table)
    (hoff : columns < t.table k) : columns - rows - k < first' - 1 := by
  by_cases hvisited : Visited s.round front back k
  · obtain ⟨w, hwall, hle⟩ := hvalid.runs_off h.moves hvisited hoff
    have := hbeyond.right w hwall
    omega
  · rw [h.moves.stays k hvisited] at hoff
    obtain ⟨w, hwall, hle, -⟩ := hvalid.right.wall hoff.le
    have := hbeyond.right w hwall
    have hne : w ≠ k := by
      intro heq
      have := hwall.reaches
      rw [heq] at this
      omega
    omega

/-- The walls of the second search stay beyond what the first one has visited. -/
theorem Apart.wall_beyond (h : Apart columns rows s s')
    (hmoves : Advance columns rows s t front back) (hwall : Wall columns s'.table w) :
    columns - rows - w < t.first := by
  obtain ⟨w', hwall', -, -, hparity, -⟩ := h.valid'.right.wall hwall.reaches.ge
  rw [hwall'.unique hwall] at hparity
  have hbeyond := h.beyond'.right w hwall
  have hparity' := h.parity
  have hlo := h.valid.parity
  have hrange := h.valid.range
  have hinside := hmoves.inside
  -- a diagonal that is new has not the parity of the wall
  rw [hmoves.first]
  omega

theorem Apart.flip (h : Apart columns rows s s') : Apart rows columns s.flip s'.flip where
  valid := h.valid.flip
  valid' := h.valid'.flip
  parity := by
    have := h.parity
    simp only [State.flip]
    omega
  beyond := h.beyond.flip h.valid.spans
  beyond' := h.beyond'.flip h.valid'.spans
  wide := h.wide

/-- **A round of the first search.** -/
theorem Apart.lead (h : Apart columns rows s s') (hcolumns : 2 ≤ columns) (hrows : 2 ≤ rows)
    (hmoves : Advance columns rows s t front back) : Led columns rows t s' := by
  have hfirst := h.valid'.spans.first_le
  have hlast := h.valid'.spans.le_last
  obtain ⟨hvalid, -, -⟩ := hmoves.valid h.valid hcolumns hrows (h.beyond.mono hfirst hlast)
  have hflips := hmoves.flip h.valid hvalid
  refine ⟨hvalid, h.valid', ?_, ⟨?_, ?_⟩, ?_, ?_, ?_, ?_⟩
  · have := h.parity
    have := hmoves.round
    omega
  · exact fun w => h.wall_beyond hmoves
  · exact fun j => h.flip.wall_beyond hflips
  · exact fun k => hmoves.far h.valid h.beyond
  · exact fun k => hflips.far h.valid.flip (h.beyond.flip h.valid.spans)
  · by_contra hshort
    by_cases hoff : columns < t.table (columns - rows)
    · have := hmoves.far h.valid h.beyond hoff
      omega
    · have hpoint : t.table (columns - rows) = columns := by omega
      by_cases hvisited : Visited s.round front back (columns - rows)
      · refine h.valid.not_corner hcolumns hmoves.moves h.beyond ?_ hvisited hpoint
        exact h.wide.imp_right h.valid'.wide
      · rw [hmoves.moves.stays _ hvisited] at hpoint
        obtain ⟨w, hwall, hle, -⟩ := h.valid.right.wall hpoint.ge
        have := h.beyond.right w hwall
        omega
  · have := hmoves.round
    have := h.valid.bounds
    have := h.valid.spans.first_le
    omega

/-- A point of the grid that is not one of the two corners where the searches begin. -/
def Between (columns rows x y : Int) : Prop :=
  (0 ≤ x ∧ x ≤ columns) ∧ (0 ≤ y ∧ y ≤ rows) ∧ 0 < x + y ∧ x + y < columns + rows

/-- **Where the searches meet**, both points lie on the grid, and not in a corner. -/
theorem Led.meet (h : Led columns rows s s') (hcolumns : 2 ≤ columns) {table' : Table}
    (hround : Round columns rows s'.round front back s'.table table')
    (hrange : s'.lo ≤ front ∧ back ≤ s'.hi) (hk : Visited s'.round front back k)
    (hcolumn : table' k ≤ columns) (hrow : table' k - k ≤ rows)
    (hvisited : s.table (columns - rows - k) ≠ -1)
    (hmeet : columns ≤ s.table (columns - rows - k) + table' k) :
    Between columns rows (s.table (columns - rows - k))
        (s.table (columns - rows - k) - (columns - rows - k)) ∧
      Between columns rows (table' k) (table' k - k) := by
  have hspan := h.valid.spans.of_visited hvisited
  have hpoint := h.valid.spans.inside _ hspan.1 hspan.2
  have hrange' := h.valid'.range
  have hvisits := hk.1
  have hvisits' := hk.2.1
  have hpoint' := hround.visited h.valid'.spans hk (by omega)
  have hright := h.right (columns - rows - k)
  have hbottom := h.bottom (-(columns - rows - k))
  rw [transpose_of_visited hvisited] at hbottom
  -- neither of the points is the corner opposite to its own
  have hcorner : ¬ (k = columns - rows ∧ table' k = columns) := by
    rintro ⟨heq, hend⟩
    rw [heq] at hk hend
    exact h.valid'.not_corner hcolumns hround h.beyond' (h.wide.imp_right h.valid.wide) hk hend
  have hshort : ¬ (k = 0 ∧ s.table (columns - rows - k) = columns) := by
    rintro ⟨heq, hend⟩
    have := h.short
    rw [heq, sub_zero] at hend
    omega
  refine ⟨⟨⟨?_, ?_⟩, ⟨?_, ?_⟩, ?_, ?_⟩, ⟨?_, ?_⟩, ⟨?_, ?_⟩, ?_, ?_⟩
  all_goals omega

end Pairs

/-! ## The beginning -/

/-- A search that has only visited its own corner. -/
def State.start : State where
  round := 1
  lo := -1
  hi := 1
  first := 0
  last := 0
  table := fun k => if k = 0 then 0 else -1

section Beginning

variable {columns rows : Int}

theorem start_valid (hcolumns : 2 ≤ columns) (hrows : 2 ≤ rows) :
    State.start.Valid columns rows where
  spans := by
    refine ⟨le_refl _, le_refl _, ?_, ?_⟩
    · intro k hk hk'
      obtain rfl : k = 0 := le_antisymm hk' hk
      exact ⟨le_refl _, le_refl _⟩
    · intro k hk
      exact if_neg (by rcases hk with hk | hk <;> simp only [State.start] at hk <;> omega)
  bounds := ⟨le_refl _, le_refl _⟩
  range := ⟨le_refl _, le_refl _⟩
  parity := ⟨rfl, rfl⟩
  wide := fun h => absurd h (by decide)
  narrow := by
    intro _ k
    simp only [State.start]
    split <;> omega
  right := by
    refine Or.inl ⟨?_, rfl⟩
    intro k
    simp only [State.start]
    split <;> omega
  bottom := by
    refine Or.inl ⟨?_, rfl⟩
    intro k
    simp only [State.start, transpose]
    split
    · omega
    · split <;> omega

/-- Nothing has come to a wall yet. -/
theorem start_beyond (hcolumns : 2 ≤ columns) (hrows : 2 ≤ rows) (first last : Int) :
    Beyond columns rows first last State.start.table where
  right := by
    intro w hwall
    have := (start_valid hcolumns hrows).narrow rfl w
    have := hwall.reaches
    omega
  bottom := by
    intro j hwall
    have := (start_valid hcolumns hrows).flip.narrow rfl j
    have := hwall.reaches
    omega

theorem start_apart (hcolumns : 2 ≤ columns) (hrows : 2 ≤ rows)
    (hparity : (columns - rows) % 2 = 0) : Apart columns rows .start .start where
  valid := start_valid hcolumns hrows
  valid' := start_valid hcolumns hrows
  parity := by
    simp only [State.start]
    omega
  beyond := start_beyond hcolumns hrows _ _
  beyond' := start_beyond hcolumns hrows _ _
  wide := Or.inl rfl

theorem start_led (hcolumns : 2 ≤ columns) (hrows : 2 ≤ rows)
    (hparity : (columns - rows) % 2 ≠ 0) : Led columns rows .start .start where
  valid := start_valid hcolumns hrows
  valid' := start_valid hcolumns hrows
  parity := by
    simp only [State.start]
    omega
  beyond' := start_beyond hcolumns hrows _ _
  right := by
    intro k hk
    have := (start_valid hcolumns hrows).narrow rfl k
    omega
  bottom := by
    intro k hk
    have := (start_valid hcolumns hrows).flip.narrow rfl k
    omega
  short := by
    have := (start_valid hcolumns hrows).narrow rfl (columns - rows)
    omega
  wide := Or.inl rfl

end Beginning

end Diagonals
