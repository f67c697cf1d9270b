import AnarchNet.Lib.FileLog
import AnarchNet.Lib.FileStages
import AnarchNet.Lib.Twin

/-!
# Two trees that differ only below a directory

Two file trees without links have the same nodes in the same order, except for what lies below a
directory. A call whose path never enters that directory ends the same way on both, changes both in
the same way and leaves alone what lies below the directory.
-/

namespace FileSystem

open EStateM

/-- A path leads below a directory. -/
def Below (top path : FilePath) : Prop := top <+: path ∧ path ≠ top

/-- `Below` compares paths. -/
instance (top path : FilePath) : Decidable (Below top path) := inferInstanceAs (Decidable (_ ∧ _))

/-- No stage of a path, dots resolved, is a directory or lies below it. -/
def Avoids (top path : FilePath) : Prop := ∀ stage, stage <+: path → ¬ top <+: normal [] stage

namespace Avoids

variable {top path left right : FilePath}

/-- The path itself. -/
theorem last (h : Avoids top path) : ¬ top <+: normal [] path := h path (List.prefix_refl path)

/-- A beginning of the path. -/
theorem front (h : Avoids top path) (hpre : left <+: path) : Avoids top left :=
  fun stage hstage => h stage (hstage.trans hpre)

/-- The path without empty components. -/
theorem filter (h : Avoids top path) : Avoids top (path.filter (· ≠ [])) := by
  intro stage hstage
  obtain ⟨front, hfront, heq⟩ := FileTree.exists_prefix_of_filter hstage
  rw [heq]
  exact h front hfront

/-- A plain path that the directory does not lie on. -/
theorem of_plain (hplain : Plain path) (h : ¬ top <+: path) : Avoids top path := by
  rintro stage ⟨rest, rfl⟩ hpre
  rw [normal_of_plain fun name hname => hplain name (List.mem_append_left _ hname),
    List.nil_append] at hpre
  exact h (hpre.trans (List.prefix_append _ _))

end Avoids

namespace FileTree

variable {one two tree : FileTree} {top path : FilePath}

/-- There are no links. -/
def NoLinks (tree : FileTree) : Prop := ∀ path target, tree.get path ≠ some (.link target)

/-- The nodes that do not lie below a directory. -/
def outer (tree : FileTree) (top : FilePath) : List (FilePath × Node) :=
  tree.nodes.filter fun entry => !decide (Below top entry.1)

/-- Trees with the same nodes away from below a directory have the same node at any such path. -/
theorem get_of_outer (h : one.outer top = two.outer top) (hpath : ¬ Below top path) :
    one.get path = two.get path := by
  have hlookup (tree : FileTree) : (tree.outer top).lookup path = tree.get path := by
    rw [outer, lookup_filter_key (fun key => !decide (Below top key))]
    simp [hpath, get]
  rw [← hlookup one, ← hlookup two, h]

/-- They list the same names in the same order in any directory but that one and those below. -/
theorem names_of_outer (h : one.outer top = two.outer top) {dir : FilePath} (hdir : ¬ top <+: dir) :
    one.names dir = two.names dir := by
  have hnames (tree : FileTree) : tree.names dir =
      ((tree.outer top).map Prod.fst).filterMap (childName dir) := by
    rw [names, outer, List.filterMap_map, List.filterMap_map, List.filterMap_filter]
    refine List.filterMap_congr fun entry _ => ?_
    split
    · rfl
    · next hbelow =>
        rw [Option.eq_none_iff_forall_ne_some]
        intro name hname
        have hkey : entry.1 = dir ++ [name] := childName_eq_some.mp hname
        have hentry : Below top entry.1 := by simpa using hbelow
        rcases List.prefix_concat_iff.1 (hkey ▸ hentry.1) with heq | hpre
        · exact hentry.2 (by rw [hkey, heq])
        · exact hdir hpre
  rw [hnames one, hnames two, h]

/-- Without links a walk ends where the path resolves lexically. -/
theorem walk_of_noLinks (hlinks : tree.NoLinks) {follow : FilePath → Option FilePath}
    {current reached : FilePath} (h : tree.walk follow current path = some reached) :
    reached = normal current path := by
  induction path generalizing current with
  | nil => simpa [walk] using h.symm
  | cons name path ih =>
      rw [normal_cons, enter]
      rcases walk_cons_cases h with ⟨hstays, h⟩ | ⟨hstays, hup, h⟩ | ⟨hname, hcases⟩
      · rw [if_pos hstays, ih h]
      · rw [if_neg hstays, if_pos hup, ih h]
      · rw [if_neg hname.1, if_neg hname.2]
        rcases hcases with ⟨-, h⟩ | ⟨content, -, hrest, rfl⟩ | ⟨target, middle, hnode, -⟩
        · exact ih h
        · rw [hrest]
          rfl
        · exact absurd hnode (hlinks _ _)

/-- Without links a path resolves lexically or not at all. -/
theorem resolve_of_noLinks (hlinks : tree.NoLinks) {reached : FilePath}
    (h : tree.resolve path = some reached) : reached = normal [] path := walk_of_noLinks hlinks h

/-- A walk that never enters the directory is the same in both trees. -/
theorem walk_of_outer (hsame : one.outer top = two.outer top) (htwo : two.NoLinks)
    {left right : FilePath → Option FilePath} {current : FilePath}
    (h : ∀ stage, stage <+: path → ¬ top <+: normal current stage) :
    one.walk left current path = two.walk right current path := by
  induction path generalizing current with
  | nil => rw [walk, walk]
  | cons name path ih =>
      have hnext : ∀ stage, stage <+: path → ¬ top <+: normal (enter current name) stage :=
        fun stage hstage => by
          have := h (name :: stage) (by simpa using hstage)
          rwa [normal_cons] at this
      rw [walk, walk]
      by_cases hstays : Stays name
      · rw [if_pos hstays, if_pos hstays]
        exact ih (by simpa [enter, hstays] using hnext)
      by_cases hup : name = dotDot
      · rw [if_neg hstays, if_neg hstays, if_pos hup, if_pos hup]
        rw [enter, if_neg hstays, if_pos hup] at hnext
        exact ih hnext
      rw [if_neg hstays, if_neg hstays, if_neg hup, if_neg hup]
      have henter : enter current name = current ++ [name] := by simp [enter, hstays, hup]
      rw [henter] at hnext
      have hget : one.get (current ++ [name]) = two.get (current ++ [name]) :=
        get_of_outer hsame fun hbelow => hnext [] List.nil_prefix hbelow.1
      rw [hget]
      cases hnode : two.get (current ++ [name]) with
      | none => rfl
      | some node =>
          cases node with
          | dir => exact ih hnext
          | file content => rfl
          | link target => exact absurd hnode (htwo _ _)

/-- A path that never enters the directory resolves alike. -/
theorem resolve_of_outer (hsame : one.outer top = two.outer top) (htwo : two.NoLinks)
    (h : Avoids top path) : one.resolve path = two.resolve path :=
  walk_of_outer hsame htwo h

/-! ## Changing both trees -/

/-- The nodes that lie below a directory. -/
def inner (tree : FileTree) (top : FilePath) : List (FilePath × Node) :=
  tree.nodes.filter fun entry => decide (Below top entry.1)

/-- Trees with the same nodes below a directory have the same node at any path there. -/
theorem get_of_inner (h : one.inner top = two.inner top) (hpath : Below top path) :
    one.get path = two.get path := by
  have hlookup (tree : FileTree) : (tree.inner top).lookup path = tree.get path := by
    rw [inner, lookup_filter_key (fun key => decide (Below top key))]
    simp [hpath, get]
  rw [← hlookup one, ← hlookup two, h]

/-- A node that does not lie below the directory is added to the others. -/
theorem outer_create {dir : FilePath} {name : Name} {node : Node} {made : FileTree}
    (h : tree.create dir name node = some made) (hpath : ¬ Below top (dir ++ [name])) :
    made.outer top = tree.outer top ++ [(dir ++ [name], node)] ∧
      made.inner top = tree.inner top := by
  unfold create at h
  split at h
  · cases h
    simp [outer, inner, List.filter_append, hpath]
  · simp at h

/-- Writing to a file that does not lie below the directory. -/
theorem outer_write (tree : FileTree) (content : Bytes) (hpath : ¬ Below top path) :
    (tree.write path content).outer top = (tree.outer top).map (fun entry =>
        (entry.1, if entry.1 = path then Node.rewrite content entry.2 else entry.2)) ∧
      (tree.write path content).inner top = tree.inner top := by
  constructor
  · rw [outer, outer, write, List.filter_map]
    rfl
  · rw [inner, inner, write, List.filter_map]
    refine (List.map_congr_left fun entry hentry => ?_).trans (List.map_id _)
    have hbelow : Below top entry.1 := by simpa using (List.mem_filter.mp hentry).2
    have hne : entry.1 ≠ path := by
      intro heq
      exact hpath (heq ▸ hbelow)
    rw [if_neg hne]
    rfl

/-- Removing what neither holds the directory nor lies in it. -/
theorem outer_prune (tree : FileTree) (hpath : ¬ top <+: path) (htop : ¬ path <+: top) :
    (tree.prune path).outer top =
        (tree.outer top).filter (fun entry => !decide (path <+: entry.1)) ∧
      (tree.prune path).inner top = tree.inner top := by
  have hne : path ≠ [] := by
    rintro rfl
    exact htop List.nil_prefix
  rw [outer, outer, inner, inner, prune, dif_neg hne]
  constructor
  · simp only [List.filter_filter, Bool.and_comm]
  · rw [List.filter_filter]
    refine List.filter_congr fun entry _ => ?_
    by_cases hbelow : Below top entry.1
    · have hnot : ¬ path <+: entry.1 := by
        intro hpre
        rcases List.prefix_or_prefix_of_prefix hpre hbelow.1 with h | h
        · exact htop h
        · exact hpath h
      simp [hbelow, hnot]
    · simp [hbelow]

/-- No link appears when another node is created. -/
theorem NoLinks.create (h : tree.NoLinks) {dir : FilePath} {name : Name} {node : Node}
    {made : FileTree} (hmade : tree.create dir name node = some made)
    (hnode : ∀ target, node ≠ .link target) : made.NoLinks := by
  intro other target hlink
  rw [get_create hmade] at hlink
  split at hlink
  · exact hnode target (Option.some.inj hlink)
  · exact h other target hlink

/-- Writing makes no links. -/
theorem NoLinks.write (h : tree.NoLinks) (path : FilePath) (content : Bytes) :
    (tree.write path content).NoLinks := by
  intro other target hlink
  rw [get_write] at hlink
  split at hlink
  · obtain ⟨node, hnode, heq⟩ := Option.map_eq_some_iff.mp hlink
    cases node with
    | link old => exact h other old hnode
    | dir | file content => simp [Node.rewrite] at heq
  · exact h other target hlink

/-- Removing makes no links. -/
theorem NoLinks.prune (h : tree.NoLinks) (hpath : path ≠ []) : (tree.prune path).NoLinks := by
  intro other target hlink
  rw [get_prune hpath] at hlink
  split at hlink
  · simp at hlink
  · exact h other target hlink

/-- Links that are not there do not lead to directories. -/
theorem NoLinks.avoidDirs (h : tree.NoLinks) : tree.LinksAvoidDirs :=
  fun path target _ _ hlink => absurd hlink (h path target)

/-- The two trees have no links and differ only below a directory, where they hold the given
nodes. -/
structure SameOutside (top : FilePath) (left right : List (FilePath × Node)) (one two : FileTree) :
    Prop where
  outer : one.outer top = two.outer top
  left : one.inner top = left
  right : two.inner top = right
  linksOne : one.NoLinks
  linksTwo : two.NoLinks
  dir : one.get top = some .dir

namespace SameOutside

variable {left right : List (FilePath × Node)}

/-- The nodes away from below the directory are the same. -/
theorem get (h : SameOutside top left right one two) (hpath : ¬ Below top path) :
    one.get path = two.get path := get_of_outer h.outer hpath

/-- Paths that never enter the directory lead to the same places. -/
theorem resolve (h : SameOutside top left right one two) (hpath : Avoids top path) :
    one.resolve path = two.resolve path := resolve_of_outer h.outer h.linksTwo hpath

/-- They lead to a place outside. -/
theorem not_below (h : SameOutside top left right one two) (hpath : Avoids top path)
    {reached : FilePath} (hreached : one.resolve path = some reached) : ¬ top <+: reached := by
  rw [resolve_of_noLinks h.linksOne hreached]
  exact hpath.last

/-- Both trees have the same slot for a new node. -/
theorem slot (h : SameOutside top left right one two) (hpath : Avoids top path) :
    one.slot path = two.slot path := by
  have hfront : Avoids top path.dropLast := hpath.front (List.dropLast_prefix path)
  rw [FileTree.slot, FileTree.slot, ← h.resolve hfront]
  cases hlast : path.getLast? with
  | none => rfl
  | some name =>
      cases hdir : one.resolve path.dropLast with
      | none => rfl
      | some dir =>
          simp only
          rw [h.get fun hbelow => h.not_below hfront hdir hbelow.1]

/-- The slot lies outside. -/
theorem slot_not_below (h : SameOutside top left right one two) (hpath : Avoids top path)
    {dir : FilePath} {name : Name} (hslot : one.slot path = some (dir, name)) :
    ¬ top <+: dir ++ [name] := by
  rw [← (slot_normal h.linksOne.avoidDirs hslot).2.2]
  exact hpath.last

/-- Both trees have the same node under a path whose last link is not followed. -/
theorem locate (h : SameOutside top left right one two) (hpath : Avoids top path) :
    one.locate path = two.locate path := by
  rw [FileTree.locate, FileTree.locate, ← h.slot hpath, ← h.resolve hpath]
  cases hslot : one.slot path with
  | none => rfl
  | some slot =>
      obtain ⟨dir, name⟩ := slot
      simp only
      rw [h.get fun hbelow => h.slot_not_below hpath hslot hbelow.1]

/-- A node is created in both trees or in none. -/
theorem create (h : SameOutside top left right one two) {dir : FilePath} {name : Name}
    (node : Node) (hpath : ¬ top <+: dir ++ [name]) (hnode : ∀ target, node ≠ .link target) :
    (one.create dir name node = none ∧ two.create dir name node = none) ∨
      ∃ made other, one.create dir name node = some made ∧ two.create dir name node = some other ∧
        SameOutside top left right made other := by
  have hdir : ¬ Below top dir := fun hbelow => hpath (hbelow.1.trans (List.prefix_append _ _))
  have hnew : ¬ Below top (dir ++ [name]) := fun hbelow => hpath hbelow.1
  have hwhen : two.get dir = some .dir ∧ two.get (dir ++ [name]) = none ∧ ValidName name ↔
      one.get dir = some .dir ∧ one.get (dir ++ [name]) = none ∧ ValidName name := by
    rw [h.get hdir, h.get hnew]
  by_cases hcan : one.get dir = some .dir ∧ one.get (dir ++ [name]) = none ∧ ValidName name
  · obtain ⟨made, hmade⟩ := create_isSome node hcan.1 hcan.2.1 hcan.2.2
    obtain ⟨hdirTwo, hnewTwo, hname⟩ := hwhen.2 hcan
    obtain ⟨other, hother⟩ := create_isSome node hdirTwo hnewTwo hname
    refine Or.inr ⟨made, other, hmade, hother, ?_⟩
    obtain ⟨houter, hinner⟩ := outer_create hmade hnew
    obtain ⟨houterTwo, hinnerTwo⟩ := outer_create hother hnew
    refine ⟨by rw [houter, houterTwo, h.outer], by rw [hinner, h.left], by rw [hinnerTwo, h.right],
      h.linksOne.create hmade hnode, h.linksTwo.create hother hnode, ?_⟩
    rw [get_create hmade, if_neg, h.dir]
    rintro rfl
    exact hpath (List.prefix_refl _)
  · refine Or.inl ⟨?_, ?_⟩
    · rw [FileTree.create, dif_neg hcan]
    · rw [FileTree.create, dif_neg fun hcould => hcan (hwhen.1 hcould)]

/-- A file outside is written in both trees. -/
theorem write (h : SameOutside top left right one two) (content : Bytes)
    (hpath : ¬ Below top path) :
    SameOutside top left right (one.write path content) (two.write path content) := by
  obtain ⟨houter, hinner⟩ := outer_write one content hpath
  obtain ⟨houterTwo, hinnerTwo⟩ := outer_write two content hpath
  refine ⟨by rw [houter, houterTwo, h.outer], by rw [hinner, h.left], by rw [hinnerTwo, h.right],
    h.linksOne.write path content, h.linksTwo.write path content, ?_⟩
  rw [get_write, h.dir]
  split <;> rfl

/-- A node outside that does not hold the directory is removed from both trees. -/
theorem prune (h : SameOutside top left right one two) (hpath : ¬ top <+: path)
    (htop : ¬ path <+: top) : SameOutside top left right (one.prune path) (two.prune path) := by
  have hne : path ≠ [] := by
    rintro rfl
    exact htop List.nil_prefix
  obtain ⟨houter, hinner⟩ := outer_prune one hpath htop
  obtain ⟨houterTwo, hinnerTwo⟩ := outer_prune two hpath htop
  refine ⟨by rw [houter, houterTwo, h.outer], by rw [hinner, h.left], by rw [hinnerTwo, h.right],
    h.linksOne.prune hne, h.linksTwo.prune hne, ?_⟩
  rw [get_prune hne, if_neg htop, h.dir]

/-- A file that can be opened for writing in one tree can be opened in the other. -/
theorem opened (h : SameOutside top left right one two) (hpath : Avoids top path) :
    (one.opened path = none ∧ two.opened path = none) ∨
      ∃ made other file, one.opened path = some (made, file) ∧
        two.opened path = some (other, file) ∧ ¬ top <+: file ∧
        SameOutside top left right made other := by
  rw [FileTree.opened, FileTree.opened, ← h.resolve hpath, ← h.slot hpath]
  cases hresolve : one.resolve path with
  | some file =>
      have hfile := h.not_below hpath hresolve
      simp only [← h.get fun hbelow => hfile hbelow.1]
      cases hnode : one.get file with
      | none => exact Or.inl ⟨rfl, rfl⟩
      | some node =>
          cases node with
          | dir | link target => exact Or.inl ⟨rfl, rfl⟩
          | file content =>
              exact Or.inr ⟨_, _, file, rfl, rfl, hfile, h.write [] fun hbelow => hfile hbelow.1⟩
  | none =>
      cases hslot : one.slot path with
      | none => exact Or.inl ⟨rfl, rfl⟩
      | some slot =>
          obtain ⟨dir, name⟩ := slot
          have hnew := h.slot_not_below hpath hslot
          rcases h.create (.file []) hnew (by simp) with
            ⟨hone, htwo⟩ | ⟨made, other, hone, htwo, hsame⟩
          · exact Or.inl ⟨by simp [hone], by simp [htwo]⟩
          · exact Or.inr ⟨made, other, dir ++ [name], by simp [hone], by simp [htwo], hnew, hsame⟩

end SameOutside

/-! ## Changing what lies below -/

variable {made : FileTree} {file : FilePath}

/-- What a path leads to: nothing, the bytes of a file, or something without bytes. -/
def seen (tree : FileTree) (path : FilePath) : Option (Option Bytes) :=
  (tree.resolve path).map tree.content

/-- Trees with the same nodes away from below a directory look the same outside. -/
theorem seen_of_outer (hsame : one.outer top = two.outer top) (hone : one.NoLinks)
    (htwo : two.NoLinks) (hpath : Avoids top path) : one.seen path = two.seen path := by
  rw [seen, seen, ← resolve_of_outer hsame htwo hpath]
  cases hreached : one.resolve path with
  | none => rfl
  | some reached =>
      have hout : ¬ Below top reached := fun hbelow => by
        rw [resolve_of_noLinks hone hreached] at hbelow
        exact hpath.last hbelow.1
      rw [Option.map_some, Option.map_some, content, content, get_of_outer hsame hout]

/-- Without links, what looks the same in two trees is at the same place. -/
theorem resolve_of_seen (hone : one.NoLinks) (htwo : two.NoLinks)
    (h : one.seen path = two.seen path) : one.resolve path = two.resolve path := by
  rw [seen, seen] at h
  cases hreached : one.resolve path with
  | none =>
      rw [hreached] at h
      exact (Option.map_eq_none_iff.mp h.symm).symm
  | some reached =>
      rw [hreached] at h
      obtain ⟨other, hother, -⟩ := Option.map_eq_some_iff.mp h.symm
      rw [hother, resolve_of_noLinks hone hreached, resolve_of_noLinks htwo hother]

/-- The same bytes are there. -/
theorem content_of_seen (hone : one.NoLinks) (htwo : two.NoLinks)
    (h : one.seen path = two.seen path) (hfile : one.resolve path = some file) :
    one.content file = two.content file := by
  have hother : two.resolve path = some file := by rw [← resolve_of_seen hone htwo h, hfile]
  rw [seen, seen, hfile, hother] at h
  exact Option.some.inj h

/-- Writing below the directory. -/
theorem outer_write_below (content : Bytes) (hpath : Below top path) :
    (tree.write path content).outer top = tree.outer top := by
  rw [outer, outer, write, List.filter_map]
  refine (List.map_congr_left fun entry hentry => ?_).trans (List.map_id _)
  have hout : ¬ Below top entry.1 := by simpa using (List.mem_filter.mp hentry).2
  have hne : entry.1 ≠ path := by
    intro heq
    exact hout (heq ▸ hpath)
  rw [if_neg hne]
  rfl

/-- Removing what lies below the directory. -/
theorem outer_prune_below (hpath : Below top path) :
    (tree.prune path).outer top = tree.outer top := by
  have hne : path ≠ [] := by
    rintro rfl
    exact hpath.2 (List.prefix_nil.mp hpath.1).symm
  rw [outer, outer, prune, dif_neg hne, List.filter_filter]
  refine List.filter_congr fun entry _ => ?_
  by_cases hpre : path <+: entry.1
  · have hbelow : Below top entry.1 := by
      refine ⟨hpath.1.trans hpre, fun heq => hpath.2 ?_⟩
      exact (heq ▸ hpre).eq_of_length_le hpath.1.length_le
    simp [hpre, hbelow]
  · simp [hpre]

/-- Opening a file below the directory. -/
theorem outer_opened (h : tree.opened path = some (made, file)) (hfile : Below top file) :
    made.outer top = tree.outer top := by
  rw [opened] at h
  cases hresolve : tree.resolve path with
  | some reached =>
      simp only [hresolve] at h
      split at h
      · simp only [Option.some.injEq, Prod.mk.injEq] at h
        obtain ⟨rfl, rfl⟩ := h
        exact outer_write_below [] hfile
      · simp at h
  | none =>
      simp only [hresolve] at h
      split at h
      · simp at h
      · next dir name hslot =>
          obtain ⟨created, hcreate, heq⟩ := Option.map_eq_some_iff.mp h
          obtain ⟨rfl, rfl⟩ := Prod.mk.inj heq
          unfold create at hcreate
          split at hcreate
          · cases hcreate
            simp [outer, List.filter_append, hfile]
          · simp at hcreate

end FileTree

section Calls

variable {ε : Type} {top path : FilePath} {left right : List (FilePath × Node)}

/-- The trees of two worlds differ only below a directory. -/
def Outside (top : FilePath) (left right : List (FilePath × Node)) (one two : World) : Prop :=
  FileTree.SameOutside top left right one.tree two.tree

/-- Asking whether a path leads anywhere. -/
theorem twin_present (hpath : Avoids top path) :
    Twin (Outside top left right) Eq (present path : EStateM ε World Bool) (present path) := by
  intro one two h
  have heq : (one.tree.resolve path).isSome = (two.tree.resolve path).isSome := by
    rw [h.resolve hpath]
  exact .ok heq h

/-- Where a path leads, and what is there. -/
theorem FileTree.SameOutside.bind_get {one two : FileTree}
    (h : FileTree.SameOutside top left right one two) (hpath : Avoids top path) :
    (one.resolve path).bind one.get = (two.resolve path).bind two.get := by
  rw [← h.resolve hpath]
  cases hreached : one.resolve path with
  | none => rfl
  | some reached => exact h.get fun hbelow => h.not_below hpath hreached hbelow.1

/-- Asking whether a path leads to a directory. -/
theorem twin_isDirectory (hpath : Avoids top path) :
    Twin (Outside top left right) Eq (isDirectory path : EStateM ε World Bool)
      (isDirectory path) := by
  intro one two h
  have heq : decide ((one.tree.resolve path).bind one.tree.get = some .dir) =
      decide ((two.tree.resolve path).bind two.tree.get = some .dir) := by
    rw [h.bind_get hpath]
  exact .ok heq h

/-- Opening a file for reading finds the same file, outside. -/
theorem twin_openIn (hpath : Avoids top path) :
    Twin (Outside top left right)
      (fun file other => file = other ∧ ∀ found, file = some found → ¬ top <+: found)
      (openIn path : EStateM ε World (Option FilePath)) (openIn path) := by
  intro one two h
  exact .ok ⟨h.resolve hpath, fun found hfound => h.not_below hpath hfound⟩ h

/-- Reading a file outside. -/
theorem twin_readAll (hpath : ¬ top <+: path) :
    Twin (Outside top left right) Eq (readAll path : EStateM ε World (Option Bytes))
      (readAll path) := by
  intro one two h
  have heq : one.tree.content path = two.tree.content path := by
    rw [FileTree.content, FileTree.content, h.get fun hbelow => hpath hbelow.1]
  exact .ok heq h

/-- Opening a file for writing opens the same file, outside. -/
theorem twin_openOut (hpath : Avoids top path) :
    Twin (Outside top left right)
      (fun file other => file = other ∧ ∀ found, file = some found → ¬ top <+: found)
      (openOut path : EStateM ε World (Option FilePath)) (openOut path) := by
  intro one two h
  rw [run_openOut_eq, run_openOut_eq]
  rcases h.opened hpath with ⟨hone, htwo⟩ | ⟨made, other, file, hone, htwo, hfile, hsame⟩
  · rw [hone, htwo]
    exact .ok ⟨rfl, by simp⟩ h
  · rw [hone, htwo]
    exact .ok ⟨rfl, by simpa using hfile⟩ hsame

/-- Writing to a file outside. -/
theorem twin_writeAt (position : Nat) (bytes : Bytes) (hpath : ¬ top <+: path) :
    Twin (Outside top left right) Eq (writeAt path position bytes : EStateM ε World Unit)
      (writeAt path position bytes) := by
  intro one two h
  have heq : one.tree.content path = two.tree.content path := by
    rw [FileTree.content, FileTree.content, h.get fun hbelow => hpath hbelow.1]
  have hsame := h.write (overlay ((one.tree.content path).getD []) position bytes)
    fun hbelow => hpath hbelow.1
  refine .ok rfl ?_
  change FileTree.SameOutside top left right (one.tree.write path _) (two.tree.write path _)
  rw [← heq]
  exact hsame

variable [FileFault ε]

/-- Creating a directory outside. -/
theorem twin_createNode (hpath : Avoids top path) :
    Twin (Outside top left right) Eq (createNode path .dir : EStateM ε World Unit)
      (createNode path .dir) := by
  intro one two h
  simp only [createNode, run_bind, run_record, run_get]
  rw [← h.slot hpath]
  cases hslot : one.tree.slot path with
  | none => exact .error h
  | some slot =>
      obtain ⟨dir, name⟩ := slot
      rcases h.create .dir (h.slot_not_below hpath hslot) (by simp) with
        ⟨hone, htwo⟩ | ⟨made, other, hone, htwo, hsame⟩
      · simp only [hone, htwo]
        exact .error h
      · simp only [hone, htwo]
        exact .ok rfl hsame

/-- Creating the missing directories of a path that stays outside. -/
theorem twin_createMissing {done rest : FilePath} (made : Bool)
    (hpath : Avoids top (done ++ rest)) :
    Twin (Outside top left right) Eq (createMissing done rest made : EStateM ε World Bool)
      (createMissing done rest made) := by
  induction rest generalizing done made with
  | nil => exact Twin.pure rfl
  | cons name rest ih =>
      rw [List.append_cons] at hpath
      have hname : Avoids top (done ++ [name]) := hpath.front (List.prefix_append _ _)
      refine Twin.bind_eq (twin_isDirectory hname) fun isDir => ?_
      refine Twin.ite (fun _ => ih false hpath) fun _ => ?_
      refine Twin.bind_eq (twin_present hname) fun isThere => ?_
      refine Twin.ite (fun _ => Twin.throw _) fun _ => ?_
      exact Twin.bind_eq (twin_createNode hname) fun _ => ih true hpath

/-- Making sure that a directory outside is there. -/
theorem twin_ensureDirectory (hpath : Avoids top path) :
    Twin (Outside top left right) Eq (ensureDirectory path : EStateM ε World Bool)
      (ensureDirectory path) := by
  refine Twin.bind_eq (twin_present hpath) fun isThere => ?_
  exact Twin.ite (fun _ => Twin.pure rfl) fun _ => twin_createMissing false hpath.filter

/-- Listing a directory outside. -/
theorem twin_listDirectory (listing : Listing) (hpath : Avoids top path) :
    Twin (Outside top left right)
      (fun names other => names = other ∧ ∀ name ∈ names, ValidName name)
      (listDirectory listing path : EStateM ε World (List Name)) (listDirectory listing path) := by
  refine Twin.and_returns ?_ (returns_listDirectory listing)
  intro one two h
  simp only [listDirectory, run_bind, run_record, run_get]
  rw [← h.resolve hpath]
  cases hreached : one.tree.resolve path with
  | none => exact .error h
  | some dir =>
      have hdir := h.not_below hpath hreached
      simp only [← h.get fun hbelow => hdir hbelow.1, ← FileTree.names_of_outer h.outer hdir]
      split
      · exact .ok rfl h
      · exact .error h

/-- Removing what lies outside. The directory has a node below its ancestors, so they stay. -/
theorem twin_remove (hpath : Avoids top path) :
    Twin (Outside top left right) Eq (remove path : EStateM ε World Bool) (remove path) := by
  intro one two h
  simp only [remove, run_bind, run_record, run_get]
  rw [← h.locate hpath]
  cases hfound : one.tree.locate path with
  | none => exact .ok rfl h
  | some found =>
      have hout : ¬ top <+: found := by
        rw [(FileTree.locate_eq_normal h.linksOne.avoidDirs hfound).1]
        exact hpath.last
      simp only [run_ite, ← FileTree.names_of_outer h.outer hout]
      split
      · next hcan =>
          refine .ok rfl (h.prune hout fun hpre => ?_)
          obtain ⟨rest, hrest⟩ := hpre
          cases rest with
          | nil => exact hout (by simp [← hrest])
          | cons name rest =>
              have hnode : one.tree.get (found ++ [name]) ≠ none := by
                have hdir := h.dir
                rw [← hrest, List.append_cons] at hdir
                rw [FileTree.get_dir_of_append hdir]
                simp
              have hname := FileTree.mem_names.2 hnode
              simp [hcan.2.2] at hname
      · exact .error h

end Calls

section Refilling

variable {top file path : FilePath} {ε : Type}

/-- Below a directory files were written or removed, and nothing else changed. -/
structure Refilled (top : FilePath) (before after : World) : Prop where
  outer : after.tree.outer top = before.tree.outer top
  old : ∀ path node, after.tree.get path = some node →
    (∃ content, node = .file content) ∨ before.tree.get path = some node

namespace Refilled

instance : Std.Refl (Refilled top) := ⟨fun _ => ⟨rfl, fun _ _ => Or.inr⟩⟩

instance : IsTrans World (Refilled top) :=
  ⟨fun _ _ _ h h' => ⟨h'.outer.trans h.outer, fun path node hnode =>
    (h'.old path node hnode).elim Or.inl (h.old path node)⟩⟩

/-- A call that leaves the tree alone. -/
theorem of_tree_eq {before after : World} (h : after.tree = before.tree) :
    Refilled top before after :=
  ⟨by rw [h], fun _ _ hnode => Or.inr (h ▸ hnode)⟩

/-- No link appears. -/
theorem noLinks {before after : World} (h : Refilled top before after)
    (hlinks : before.tree.NoLinks) : after.tree.NoLinks := by
  intro path target hlink
  rcases h.old path _ hlink with ⟨content, hfile⟩ | hold
  · cases hfile
  · exact hlinks path target hold

/-- Writing to a file below the directory. -/
theorem writeAt (hfile : Below top file) (position : Nat) (bytes : Bytes) :
    Preserves (Refilled top) (FileSystem.writeAt file position bytes : EStateM ε World Unit) := by
  intro world
  refine ⟨FileTree.outer_write_below _ hfile, fun path node hnode => ?_⟩
  have hget := (FileTree.get_write file (overlay ((world.tree.content file).getD []) position bytes)
    path).symm.trans hnode
  split at hget
  · obtain ⟨old, hold, rfl⟩ := Option.map_eq_some_iff.mp hget
    cases old with
    | file content => exact Or.inl ⟨_, rfl⟩
    | dir | link target => exact Or.inr hold
  · exact Or.inr hget

/-- Removing a file below the directory. -/
theorem remove [FileFault ε] {world : World} (hlinks : world.tree.NoLinks) (hplain : Plain path)
    (hpath : Below top path) :
    Refilled top world ((FileSystem.remove path : EStateM ε World Bool).run world).state := by
  simp only [FileSystem.remove, run_bind, run_record, run_get]
  cases hfound : world.tree.locate path with
  | none => exact of_tree_eq rfl
  | some found =>
      obtain rfl : found = path := by
        rw [(FileTree.locate_eq_normal hlinks.avoidDirs hfound).1, normal_of_plain hplain,
          List.nil_append]
      simp only [run_ite]
      split
      · next hcan =>
          refine ⟨FileTree.outer_prune_below hpath, fun other node hnode => Or.inr ?_⟩
          have hget := (FileTree.get_prune hcan.2.1 other).symm.trans hnode
          split at hget
          · cases hget
          · exact hget
      · exact of_tree_eq rfl

end Refilled

end Refilling

end FileSystem
