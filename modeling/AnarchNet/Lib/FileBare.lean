import AnarchNet.Lib.FileFaults

/-!
# Directories without entries

A call that creates a node in a new directory can fail after the directory was made. `StopsBehind`
says of which directory that is. The lemmas say when a directory has lost its entries or has never
got one: after a path of directories was made with calls that may fail, and after nodes were removed.
-/

namespace FileSystem

open EStateM

namespace FileTree

/-- A directory without entries. -/
def Bare (tree : FileTree) (dir : FilePath) : Prop :=
  tree.get dir = some .dir ∧ ∀ name, tree.get (dir ++ [name]) = none

section Bare

variable {before after tree : FileTree} {dir spot : FilePath}

/-- A directory that had an entry still has it when nothing was removed. -/
theorem Bare.of_more (h : after.Bare dir) (hdir : before.get dir = some .dir)
    (hmore : ∀ path, before.get path ≠ none → after.get path ≠ none) : before.Bare dir := by
  refine ⟨hdir, fun name => ?_⟩
  by_contra hname
  exact hmore _ hname (h.2 name)

/-- Whether a directory has entries depends only on what is in it. -/
theorem Bare.congr {base : FilePath} (h : after.Bare dir) (hdir : base <+: dir)
    (hget : ∀ rest, after.get (base ++ rest) = before.get (base ++ rest)) : before.Bare dir := by
  obtain ⟨rest, rfl⟩ := hdir
  refine ⟨hget rest ▸ h.1, fun name => ?_⟩
  rw [List.append_assoc, ← hget, ← List.append_assoc]
  exact h.2 name

/-- There is nothing below a directory without entries. -/
theorem Bare.eq_of_prefix (h : tree.Bare dir) {other : FilePath} (hpre : dir <+: other)
    (hother : tree.get other ≠ none) : other = dir := by
  obtain ⟨rest, rfl⟩ := hpre
  cases rest with
  | nil => rw [List.append_nil]
  | cons name rest =>
      rw [List.append_cons] at hother
      have hname : tree.get (dir ++ [name]) ≠ none := by
        cases rest with
        | nil => rwa [List.append_nil] at hother
        | cons next rest => simp [get_of_append (List.cons_ne_nil next rest) hother]
      exact absurd (h.2 name) hname

/-- Behind a path that leads to a directory without entries, a name leads nowhere. -/
theorem Bare.resolve_snoc (hlinks : tree.LinksToFiles) {path : FilePath} {name : Name}
    (h : tree.Bare (normal [] path)) (hname : Proper name) : tree.resolve (path ++ [name]) = none :=
  resolve_snoc_missing hlinks hname (h.2 name)

/-- New directories at stages of a path that leads to a directory: only the last of them can have no
entries. -/
theorem Bare.eq_normal {path : FilePath} (h : after.Bare dir) (hold : ¬ before.Bare dir)
    (hup : dotDot ∉ path) (hpath : after.get (normal [] path) = some .dir)
    (hgrows : Grows (fun other node => node = .dir ∧
      ∃ stage, stage <+: path ∧ other = normal [] stage) before after) :
    dir = normal [] path := by
  rcases hgrows.get dir with heq | ⟨-, node, -, -, stage, hstage, rfl⟩
  · refine absurd (h.of_more (heq ▸ h.1) fun other hother => ?_) hold
    obtain ⟨node, hnode⟩ := Option.ne_none_iff_exists'.1 hother
    simp [hgrows.get_of_some hnode]
  · exact (h.eq_of_prefix (normal_prefix_normal hup hstage []) (by simp [hpath])).symm

/-- Removing a node leaves a directory without entries when the node was its only entry. -/
theorem Bare.of_prune (h : (tree.prune spot).Bare dir) (hold : ¬ tree.Bare dir)
    (hspot : spot ≠ []) :
    ∃ name, spot = dir ++ [name] ∧ ∀ other, tree.get (dir ++ [other]) ≠ none → other = name := by
  obtain ⟨hdir, hnames⟩ := h
  rw [get_prune hspot] at hdir
  split at hdir
  · simp at hdir
  · next hnot =>
      have hentry : ∀ other, tree.get (dir ++ [other]) ≠ none → spot = dir ++ [other] := by
        intro other hother
        have hgone := hnames other
        rw [get_prune hspot] at hgone
        split at hgone
        · next hpre => exact (List.prefix_concat_iff.1 hpre).resolve_right hnot
        · exact absurd hgone hother
      have hsome : ∃ name, tree.get (dir ++ [name]) ≠ none := by
        by_contra hnone
        exact hold ⟨hdir, fun name => not_not.1 fun hname => hnone ⟨name, hname⟩⟩
      obtain ⟨name, hname⟩ := hsome
      refine ⟨name, hentry name hname, fun other hother => ?_⟩
      simpa using (hentry other hother).symm.trans (hentry name hname)

/-- Removing entries of a directory leaves only this one without entries. -/
theorem Bare.of_unnamed {names : List Name} (h : after.Bare dir) (hold : ¬ before.Bare dir)
    (hunnamed : Unnamed spot names before after) :
    dir = spot ∧ ∀ name, before.get (dir ++ [name]) ≠ none → name ∈ names := by
  obtain ⟨hdir, hnames⟩ := h
  rw [hunnamed] at hdir
  split at hdir
  · simp at hdir
  · next hnot =>
      have hentry : ∀ other, before.get (dir ++ [other]) ≠ none →
          ∃ name ∈ names, spot ++ [name] = dir ++ [other] := by
        intro other hother
        have hgone := hnames other
        rw [hunnamed] at hgone
        split at hgone
        · next hname =>
            obtain ⟨name, hmem, hpre⟩ := hname
            exact ⟨name, hmem, (List.prefix_concat_iff.1 hpre).resolve_right fun hpre =>
              hnot ⟨name, hmem, hpre⟩⟩
        · exact absurd hgone hother
      have hsome : ∃ name, before.get (dir ++ [name]) ≠ none := by
        by_contra hnone
        exact hold ⟨hdir, fun name => not_not.1 fun hname => hnone ⟨name, hname⟩⟩
      obtain ⟨other, hother⟩ := hsome
      obtain ⟨name, -, heq⟩ := hentry other hother
      obtain ⟨rfl, -⟩ := List.append_inj' heq rfl
      refine ⟨rfl, fun last hlast => ?_⟩
      obtain ⟨found, hfound, heq⟩ := hentry last hlast
      obtain ⟨-, heq⟩ := List.append_inj' heq rfl
      rw [List.cons.injEq] at heq
      exact heq.1 ▸ hfound

/-- Clearing a directory removes its entries. -/
theorem unnamed_clear (tree : FileTree) (dir : FilePath) :
    Unnamed dir (tree.names dir) tree (tree.clear dir) := by
  rw [clear]
  generalize tree.names dir = names
  induction names generalizing tree with
  | nil => exact fun path => by simp
  | cons name names ih => exact (ih _).cons

end Bare

end FileTree

section Calls

/-- A directory on the way to a path is there, and the call that is to make the next one fails. -/
def StopsBehind (ε : Type) [FileFault ε] (path : FilePath) (state : FaultyWorld) (dir : FilePath) :
    Prop :=
  ∃ front name flag middle last, front ++ [name] <+: path.filter (· ≠ []) ∧ normal [] front = dir ∧
    (createMissingFaulty [] front false : EStateM ε FaultyWorld Bool).run state = .ok flag middle ∧
    middle.world.tree.resolve (front ++ [name]) = none ∧
    (createNodeFaulty (front ++ [name]) .dir : EStateM ε FaultyWorld Unit).run middle =
      .error FileFault.filesystemError last

variable {ε : Type} [FileFault ε]

/-- When directories were made along a path, one without entries is the last one, or it is the one
behind which a call failed. -/
theorem bare_ensureDirectoryFaulty {state : FaultyWorld} {path dir : FilePath}
    (hlinks : state.world.tree.LinksToFiles) (hup : dotDot ∉ path)
    (hbare : ((ensureDirectoryFaulty path : EStateM ε FaultyWorld Bool).run state).state.world.tree.Bare
      dir) (hold : ¬ state.world.tree.Bare dir) :
    dir = normal [] path ∧ (∃ flag after,
        (ensureDirectoryFaulty path : EStateM ε FaultyWorld Bool).run state = .ok flag after) ∨
      StopsBehind ε path state dir := by
  rw [ensureDirectoryFaulty, run_bind, run_reliable, run_present, withFaults_ok] at hbare ⊢
  simp only at hbare ⊢
  by_cases hthere : (state.world.tree.resolve path).isSome = true
  · rw [if_pos hthere] at hbare
    exact absurd hbare hold
  rw [if_neg hthere] at hbare ⊢
  have hup' : dotDot ∉ path.filter (· ≠ []) := fun hmem => hup (List.mem_of_mem_filter hmem)
  rcases run_createMissingFaulty_cases (ε := ε) [] (path.filter (· ≠ [])) false state with
    ⟨flag, after, hok, hrun⟩ |
    ⟨front, name, flag, middle, after, hfront, hfaulty, hrun, herror, hsame, hnot, hfails⟩
  · have hwent := wentAlong_createMissing (ε := ε) (path.filter (· ≠ [])) false hlinks
      (FileTree.passable_nil _)
    rw [hrun] at hwent
    rw [hok] at hbare
    refine Or.inl ⟨?_, flag, after, hok⟩
    rw [← normal_filter]
    exact hbare.eq_normal hold hup' (hwent.passable _ _ rfl).get_normal hwent.grows
  · have hwent := wentAlong_createMissing (ε := ε) front false hlinks (FileTree.passable_nil _)
    rw [hrun] at hwent
    rw [herror, Result.state_error, hsame] at hbare
    have hpass : middle.world.tree.Passable front := hwent.passable _ _ rfl
    have hupFront : dotDot ∉ front := fun hmem =>
      hup' (hfront.subset (List.mem_append_left _ hmem))
    obtain rfl := hbare.eq_normal hold hupFront hpass.get_normal hwent.grows
    have hname : Proper name := hpass.proper_of_not fun hpass' =>
      hnot ((FileTree.resolve_dir_iff hwent.links.avoidDirs).2 (by simpa using hpass'))
    have hnone : middle.world.tree.resolve (front ++ [name]) = none :=
      hbare.resolve_snoc hwent.links hname
    refine Or.inr ⟨front, name, flag, middle, ?_⟩
    rcases hfails with hthere | ⟨last, hlast⟩
    · simp [hnone] at hthere
    · exact ⟨last, hfront, rfl, hfaulty, hnone, hlast⟩

end Calls

end FileSystem
