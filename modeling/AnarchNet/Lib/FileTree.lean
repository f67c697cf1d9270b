import AnarchNet.Lib.Path
import Mathlib.Data.List.Nodup

/-!
# File trees

A file tree is a finite list of nodes under absolute paths. The structure carries what every
file system keeps true: no path occurs twice, the root is a directory, every node lies in a
directory, and its name is one that a file system stores. `FileTree.get` reads one node,
`FileTree.names` lists a directory, `create`, `write` and `prune` are the three ways a tree changes,
and `resolve` is the path walk of the system, which goes through existing directories only and
follows links.
-/

namespace FileSystem

section Lookup

variable {α β : Type} [BEq α] [LawfulBEq α] [DecidableEq α]

/-- Looking up in a longer list compares with its first key. -/
theorem lookup_cons_eq_ite (key first : α) (value : β) (rest : List (α × β)) :
    ((first, value) :: rest).lookup key = if key = first then some value else rest.lookup key := by
  rw [List.lookup_cons]
  by_cases h : key = first
  · simp [h]
  · rw [beq_false_of_ne h, if_neg h]

/-- Looking up finds nothing exactly when the key does not occur. -/
theorem lookup_eq_none_iff_not_mem_keys {entries : List (α × β)} {key : α} :
    entries.lookup key = none ↔ key ∉ entries.map Prod.fst := by
  induction entries with
  | nil => simp
  | cons entry entries ih =>
      rw [← Prod.eta entry, lookup_cons_eq_ite]
      by_cases h : key = entry.1 <;> simp [h, ih]

/-- A map that keeps the keys acts on the value found. -/
theorem lookup_map_value (f : α → β → β) (entries : List (α × β)) (key : α) :
    (entries.map fun entry => (entry.1, f entry.1 entry.2)).lookup key =
      (entries.lookup key).map (f key) := by
  induction entries with
  | nil => rfl
  | cons entry entries ih =>
      rw [List.map_cons, ← Prod.eta entry, lookup_cons_eq_ite, lookup_cons_eq_ite, ih]
      by_cases h : key = entry.1 <;> simp [h]

/-- A filter on the keys hides exactly the keys it rejects. -/
theorem lookup_filter_key (keep : α → Bool) (entries : List (α × β)) (key : α) :
    (entries.filter fun entry => keep entry.1).lookup key =
      if keep key then entries.lookup key else none := by
  induction entries with
  | nil => simp
  | cons entry entries ih =>
      rw [← Prod.eta entry, lookup_cons_eq_ite, List.filter_cons]
      by_cases hkeep : keep entry.1
      · rw [if_pos hkeep, lookup_cons_eq_ite, ih]
        by_cases h : key = entry.1 <;> simp [h, hkeep]
      · rw [if_neg hkeep, ih]
        by_cases h : key = entry.1 <;> simp [h, hkeep]

end Lookup

/-- What a path can name. A link holds the components of its target, taken from the root. -/
inductive Node where
  | dir
  | file (content : Bytes)
  | link (target : FilePath)
  deriving DecidableEq, Repr

/-- A file tree. -/
structure FileTree where
  nodes : List (FilePath × Node)
  nodup : (nodes.map Prod.fst).Nodup
  root : nodes.lookup [] = some .dir
  closed : ∀ path name, nodes.lookup (path ++ [name]) ≠ none → nodes.lookup path = some .dir
  valid : ∀ path name, nodes.lookup (path ++ [name]) ≠ none → ValidName name

/-- The name under which `key` is an entry of `path`, if it is one. -/
def childName (path key : FilePath) : Option Name :=
  if key ≠ [] ∧ key.dropLast = path then key.getLast? else none

/-- `childName` finds the entries of a directory. -/
theorem childName_eq_some {path key : FilePath} {name : Name} :
    childName path key = some name ↔ key = path ++ [name] := by
  constructor
  · intro h
    unfold childName at h
    split at h
    · rename_i hkey
      rw [← hkey.2]
      exact (List.dropLast_append_getLast? name h).symm
    · simp at h
  · rintro rfl
    simp [childName]

namespace FileTree

/-- The node at a path. -/
def get (tree : FileTree) (path : FilePath) : Option Node := tree.nodes.lookup path

/-- The names in a directory, in the order in which they were created. -/
def names (tree : FileTree) (path : FilePath) : List Name :=
  (tree.nodes.map Prod.fst).filterMap (childName path)

/-- The tree that holds only its root. -/
def empty : FileTree where
  nodes := [([], .dir)]
  nodup := by simp
  root := rfl
  closed := by
    intro path name h
    exact absurd (lookup_eq_none_iff_not_mem_keys.2 (by simp)) h
  valid := by
    intro path name h
    exact absurd (lookup_eq_none_iff_not_mem_keys.2 (by simp)) h

/-- The root of a tree is a directory. -/
@[simp] theorem get_root (tree : FileTree) : tree.get [] = some .dir := tree.root

/-- Every node lies in a directory. -/
theorem get_parent {tree : FileTree} {path : FilePath} {name : Name}
    (h : tree.get (path ++ [name]) ≠ none) : tree.get path = some .dir :=
  tree.closed path name h

/-- The name of a node is valid. -/
theorem get_valid {tree : FileTree} {path : FilePath} {name : Name}
    (h : tree.get (path ++ [name]) ≠ none) : ValidName name :=
  tree.valid path name h

/-- Everything above a node is a directory. -/
theorem get_of_append {tree : FileTree} {path rest : FilePath} (hrest : rest ≠ [])
    (h : tree.get (path ++ rest) ≠ none) : tree.get path = some .dir := by
  induction rest using List.reverseRecOn with
  | nil => exact absurd rfl hrest
  | append_singleton rest name ih =>
      rw [← List.append_assoc] at h
      have hparent := get_parent h
      cases rest with
      | nil => simpa using hparent
      | cons first rest => exact ih (by simp) (by simp [hparent])

/-- A directory and everything above it are directories. -/
theorem get_dir_of_append {tree : FileTree} {path rest : FilePath}
    (h : tree.get (path ++ rest) = some .dir) : tree.get path = some .dir := by
  cases rest with
  | nil => simpa using h
  | cons name rest => exact get_of_append (List.cons_ne_nil name rest) (by rw [h]; simp)

/-- Nothing lies below a path that is not a directory. -/
theorem get_below_eq_none {tree : FileTree} {path rest : FilePath} (hpath : tree.get path ≠ some .dir)
    (hrest : rest ≠ []) : tree.get (path ++ rest) = none := by
  by_contra h
  exact hpath (get_of_append hrest h)

/-- A listing holds exactly the names that have a node. -/
theorem mem_names {tree : FileTree} {path : FilePath} {name : Name} :
    name ∈ tree.names path ↔ tree.get (path ++ [name]) ≠ none := by
  simp only [names, List.mem_filterMap, childName_eq_some, exists_eq_right, List.mem_map]
  rw [get, ← Option.isSome_iff_ne_none, List.lookup_isSome_iff]
  simp only [beq_iff_eq]
  constructor
  · rintro ⟨entry, hmem, hkey⟩
    exact ⟨entry, hmem, hkey.symm⟩
  · rintro ⟨entry, hmem, hkey⟩
    exact ⟨entry, hmem, hkey.symm⟩

/-- A listing holds each name once. -/
theorem names_nodup (tree : FileTree) (path : FilePath) : (tree.names path).Nodup := by
  refine List.Nodup.filterMap ?_ tree.nodup
  intro key other name hkey hother
  rw [Option.mem_def, childName_eq_some] at hkey hother
  rw [hkey, hother]

/-- Only directories have entries. -/
theorem names_eq_nil {tree : FileTree} {path : FilePath} (h : tree.get path ≠ some .dir) :
    tree.names path = [] := by
  rw [List.eq_nil_iff_forall_not_mem]
  intro name hname
  exact h (get_parent (mem_names.1 hname))

/-! ## Changing a tree -/

/-- Put a new node into a directory. It fails if the directory is missing, if the name is
taken, or if the name is not one that a file system stores. -/
def create (tree : FileTree) (path : FilePath) (name : Name) (node : Node) : Option FileTree :=
  if h : tree.get path = some .dir ∧ tree.get (path ++ [name]) = none ∧ ValidName name then
    some
      { nodes := tree.nodes ++ [(path ++ [name], node)]
        nodup := by
          have hnew : path ++ [name] ∉ tree.nodes.map Prod.fst :=
            lookup_eq_none_iff_not_mem_keys.1 h.2.1
          rw [List.map_append, List.map_singleton]
          refine List.nodup_append.2 ⟨tree.nodup, List.nodup_singleton _, ?_⟩
          rintro key hkey other hother rfl
          rw [List.mem_singleton.1 hother] at hkey
          exact hnew hkey
        root := by rw [List.lookup_append, tree.root]; rfl
        closed := by
          intro other child hchild
          rw [List.lookup_append] at hchild ⊢
          by_cases hold : tree.nodes.lookup (other ++ [child]) = none
          · rw [hold, Option.none_or, lookup_cons_eq_ite] at hchild
            have heq : other ++ [child] = path ++ [name] := by
              by_contra hne
              simp [hne] at hchild
            obtain ⟨rfl, -⟩ := List.append_inj' heq rfl
            rw [show tree.nodes.lookup other = some .dir from h.1, Option.some_or]
          · rw [tree.closed other child hold, Option.some_or]
        valid := by
          intro other child hchild
          rw [List.lookup_append] at hchild
          by_cases hold : tree.nodes.lookup (other ++ [child]) = none
          · rw [hold, Option.none_or, lookup_cons_eq_ite] at hchild
            have heq : other ++ [child] = path ++ [name] := by
              by_contra hne
              simp [hne] at hchild
            obtain ⟨-, heq⟩ := List.append_inj' heq rfl
            rw [List.cons.injEq] at heq
            rw [heq.1]
            exact h.2.2
          · exact tree.valid other child hold }
  else none

/-- Writing to a node replaces the content of a file and leaves other nodes alone. -/
def Node.rewrite (content : Bytes) : Node → Node
  | .file _ => .file content
  | node => node

/-- Rewriting keeps directories. -/
@[simp] theorem Node.rewrite_eq_dir {content : Bytes} {node : Node} :
    Node.rewrite content node = .dir ↔ node = .dir := by
  cases node <;> simp [Node.rewrite]

/-- Replace the content of a file; nothing happens at other nodes. -/
def write (tree : FileTree) (path : FilePath) (content : Bytes) : FileTree where
  nodes := tree.nodes.map fun entry =>
    (entry.1, if entry.1 = path then Node.rewrite content entry.2 else entry.2)
  nodup := by simpa [List.map_map, Function.comp_def] using tree.nodup
  root := by
    rw [lookup_map_value (fun key node => if key = path then Node.rewrite content node else node),
      tree.root]
    by_cases h : [] = path <;> simp [h]
  closed := by
    intro other child hchild
    rw [lookup_map_value (fun key node => if key = path then Node.rewrite content node else node)]
      at hchild ⊢
    have hold : tree.nodes.lookup (other ++ [child]) ≠ none := by
      intro hnone
      simp [hnone] at hchild
    rw [tree.closed other child hold]
    by_cases h : other = path <;> simp [h]
  valid := by
    intro other child hchild
    rw [lookup_map_value (fun key node => if key = path then Node.rewrite content node else node)]
      at hchild
    refine tree.valid other child fun hnone => ?_
    simp [hnone] at hchild

/-- Remove a node and everything below it. The root stays. -/
def prune (tree : FileTree) (path : FilePath) : FileTree :=
  if h : path = [] then tree
  else
    { nodes := tree.nodes.filter fun entry => !decide (path <+: entry.1)
      nodup := (tree.nodup.sublist (List.Sublist.map _ List.filter_sublist))
      root := by
        rw [lookup_filter_key (fun key => !decide (path <+: key))]
        simp [h, tree.root]
      closed := by
        intro other child hchild
        rw [lookup_filter_key (fun key => !decide (path <+: key))] at hchild ⊢
        by_cases hpre : path <+: other ++ [child]
        · simp [hpre] at hchild
        · have hother : ¬ path <+: other := fun hpath =>
            hpre (hpath.trans (List.prefix_append _ _))
          simp only [hpre, decide_false, Bool.not_false, if_true] at hchild
          simp [hother, tree.closed other child hchild]
      valid := by
        intro other child hchild
        rw [lookup_filter_key (fun key => !decide (path <+: key))] at hchild
        refine tree.valid other child fun hnone => ?_
        simp [hnone] at hchild }

variable {tree : FileTree}

/-- What a successful `create` required. -/
theorem create_eq_some {path : FilePath} {name : Name} {node : Node} {result : FileTree}
    (h : tree.create path name node = some result) :
    tree.get path = some .dir ∧ tree.get (path ++ [name]) = none ∧ ValidName name := by
  unfold create at h
  split at h
  · assumption
  · simp at h

/-- The new node is there and every other node is as before. -/
theorem get_create {path : FilePath} {name : Name} {node : Node} {result : FileTree}
    (h : tree.create path name node = some result) (other : FilePath) :
    result.get other = if other = path ++ [name] then some node else tree.get other := by
  have hnew := (create_eq_some h).2.1
  unfold create at h
  split at h
  · cases h
    rw [get, List.lookup_append, lookup_cons_eq_ite]
    by_cases heq : other = path ++ [name]
    · subst heq
      rw [show tree.nodes.lookup (path ++ [name]) = none from hnew, if_pos rfl, if_pos rfl]
      rfl
    · rw [if_neg heq, if_neg heq, List.lookup_nil, Option.or_none]
      rfl
  · simp at h

/-- A `create` whose conditions hold succeeds. -/
theorem create_isSome {path : FilePath} {name : Name} (node : Node)
    (hdir : tree.get path = some .dir) (hnew : tree.get (path ++ [name]) = none)
    (hvalid : ValidName name) : ∃ result, tree.create path name node = some result := by
  unfold create
  rw [dif_pos ⟨hdir, hnew, hvalid⟩]
  exact ⟨_, rfl⟩

/-- Writing changes the content of one file. -/
theorem get_write (path : FilePath) (content : Bytes) (other : FilePath) :
    (tree.write path content).get other =
      if other = path then (tree.get other).map (Node.rewrite content) else tree.get other := by
  rw [get, write, lookup_map_value
    (fun key node => if key = path then Node.rewrite content node else node)]
  by_cases h : other = path
  · simp [h, get]
  · simp [h, get]

/-- Pruning hides a subtree and nothing else. -/
theorem get_prune {path : FilePath} (hpath : path ≠ []) (other : FilePath) :
    (tree.prune path).get other = if path <+: other then none else tree.get other := by
  rw [prune, dif_neg hpath, get, lookup_filter_key (fun key => !decide (path <+: key))]
  by_cases h : path <+: other <;> simp [h, get]

/-! ## Resolving paths -/

/-- Walk from the directory `current` along `path`. A missing entry stops the walk, and so does
a file that is not the last component. `follow` resolves the target of a link. -/
def walk (tree : FileTree) (follow : FilePath → Option FilePath) : FilePath → FilePath → Option FilePath
  | current, [] => some current
  | current, name :: rest =>
      if Stays name then walk tree follow current rest
      else if name = dotDot then walk tree follow current.dropLast rest
      else
        match tree.get (current ++ [name]) with
        | none => none
        | some .dir => walk tree follow (current ++ [name]) rest
        | some (.file _) => if rest = [] then some (current ++ [name]) else none
        | some (.link target) =>
            match follow target with
            | none => none
            | some reached =>
                if rest = [] then some reached
                else if tree.get reached = some .dir then walk tree follow reached rest
                else none

/-- Resolve the target of a link through at most `limit` further links. -/
def follow (tree : FileTree) : Nat → FilePath → Option FilePath
  | 0, _ => none
  | limit + 1, target => walk tree (follow tree limit) [] target

/-- The path of the node that a path names, all links followed. -/
def resolve (tree : FileTree) (path : FilePath) : Option FilePath := walk tree (follow tree 40) [] path

/-- No link of the tree leads to a directory. -/
def LinksAvoidDirs (tree : FileTree) : Prop :=
  ∀ path target limit reached, tree.get path = some (.link target) →
    tree.follow limit target = some reached → tree.get reached ≠ some .dir

variable {follow : FilePath → Option FilePath}

/-- Everything the first step of a successful walk can be. -/
theorem walk_cons_cases {current rest reached : FilePath} {name : Name}
    (h : tree.walk follow current (name :: rest) = some reached) :
    (Stays name ∧ tree.walk follow current rest = some reached) ∨
    (¬ Stays name ∧ name = dotDot ∧ tree.walk follow current.dropLast rest = some reached) ∨
    (Proper name ∧
      ((tree.get (current ++ [name]) = some .dir ∧
          tree.walk follow (current ++ [name]) rest = some reached) ∨
        (∃ content, tree.get (current ++ [name]) = some (.file content) ∧
          rest = [] ∧ current ++ [name] = reached) ∨
        ∃ target middle, tree.get (current ++ [name]) = some (.link target) ∧
          follow target = some middle ∧
          ((rest = [] ∧ middle = reached) ∨
            (rest ≠ [] ∧ tree.get middle = some .dir ∧
              tree.walk follow middle rest = some reached)))) := by
  rw [walk] at h
  by_cases hstays : Stays name
  · rw [if_pos hstays] at h
    exact Or.inl ⟨hstays, h⟩
  rw [if_neg hstays] at h
  by_cases hup : name = dotDot
  · rw [if_pos hup] at h
    exact Or.inr (Or.inl ⟨hstays, hup, h⟩)
  rw [if_neg hup] at h
  refine Or.inr (Or.inr ⟨⟨hstays, hup⟩, ?_⟩)
  cases hnode : tree.get (current ++ [name]) with
  | none => simp [hnode] at h
  | some node =>
      rw [hnode] at h
      cases node with
      | dir => exact Or.inl ⟨rfl, h⟩
      | file content =>
          by_cases hrest : rest = []
          · simp only [hrest, if_true, Option.some.injEq] at h
            exact Or.inr (Or.inl ⟨content, rfl, hrest, h⟩)
          · simp [hrest] at h
      | link target =>
          cases hfollow : follow target with
          | none => simp [hfollow] at h
          | some middle =>
              simp only [hfollow] at h
              refine Or.inr (Or.inr ⟨target, middle, rfl, hfollow, ?_⟩)
              by_cases hrest : rest = []
              · simp only [hrest, if_true, Option.some.injEq] at h
                exact Or.inl ⟨hrest, h⟩
              · by_cases hmiddle : tree.get middle = some .dir
                · simp only [hrest, if_false, hmiddle, if_true] at h
                  exact Or.inr ⟨hrest, hmiddle, h⟩
                · simp [hrest, hmiddle] at h

/-- A walk along plain names to a directory or a file ends at the concatenated path. -/
theorem walk_of_get (current : FilePath) {path : FilePath} {node : Node} (hpath : Plain path)
    (h : tree.get (current ++ path) = some node) (hnode : ∀ target, node ≠ .link target) :
    tree.walk follow current path = some (current ++ path) := by
  induction path generalizing current with
  | nil => simp [walk]
  | cons name path ih =>
      have hname : Proper name := hpath name (by simp)
      have hassoc : current ++ name :: path = current ++ [name] ++ path := by simp
      rw [hassoc] at h ⊢
      rw [walk, if_neg hname.1, if_neg hname.2]
      have ih' := ih (current ++ [name]) (fun other hother => hpath other (by simp [hother])) h
      cases path with
      | nil =>
          rw [List.append_nil] at h
          rw [h]
          cases node with
          | dir => exact ih'
          | file content => simp
          | link target => exact absurd rfl (hnode target)
      | cons second path =>
          rw [get_of_append (List.cons_ne_nil second path) (by rw [h]; simp)]
          exact ih'

/-- A walk may be cut where it is at a directory. -/
theorem walk_append {current left right middle : FilePath}
    (h : tree.walk follow current left = some middle) (hdir : tree.get middle = some .dir) :
    tree.walk follow current (left ++ right) = tree.walk follow middle right := by
  induction left generalizing current with
  | nil =>
      rw [walk, Option.some.injEq] at h
      rw [h, List.nil_append]
  | cons name left ih =>
      rw [List.cons_append, walk]
      rcases walk_cons_cases h with ⟨hstays, h⟩ | ⟨hstays, hup, h⟩ | ⟨hname, hcases⟩
      · rw [if_pos hstays, ih h]
      · rw [if_neg hstays, if_pos hup, ih h]
      · rw [if_neg hname.1, if_neg hname.2]
        rcases hcases with ⟨hnode, h⟩ | ⟨content, hnode, -, rfl⟩ |
          ⟨target, reached, hnode, hfollow, hcases⟩
        · rw [hnode]
          exact ih h
        · simp [hnode] at hdir
        · rw [hnode]
          simp only [hfollow]
          rcases hcases with ⟨rfl, rfl⟩ | ⟨hleft, hreached, h⟩
          · by_cases hright : right = []
            · simp [hright, walk]
            · simp [hright, hdir]
          · rw [if_neg (by simp [hleft]), if_pos hreached, ih h]

/-- A walk to a directory ends where the path resolves lexically: no link can lie on it, since
links do not lead to directories. -/
theorem walk_eq_normal {limit : Nat} (hlinks : tree.LinksAvoidDirs) {current path reached : FilePath}
    (h : tree.walk (tree.follow limit) current path = some reached)
    (hdir : tree.get reached = some .dir) : reached = normal current path := by
  induction path generalizing current with
  | nil =>
      rw [walk, Option.some.injEq] at h
      simp [h]
  | cons name path ih =>
      rw [normal_cons, enter]
      rcases walk_cons_cases h with ⟨hstays, h⟩ | ⟨hstays, hup, h⟩ | ⟨hname, hcases⟩
      · rw [if_pos hstays, ih h]
      · rw [if_neg hstays, if_pos hup, ih h]
      · rw [if_neg hname.1, if_neg hname.2]
        rcases hcases with ⟨-, h⟩ | ⟨content, hnode, -, rfl⟩ |
          ⟨target, middle, hnode, hfollow, ⟨-, rfl⟩ | ⟨-, hmiddle, -⟩⟩
        · exact ih h
        · simp [hnode] at hdir
        · exact absurd hdir (hlinks _ _ _ _ hnode hfollow)
        · exact absurd hmiddle (hlinks _ _ _ _ hnode hfollow)

/-- A plain path to a missing node does not resolve. -/
theorem walk_of_missing {limit : Nat} (hlinks : tree.LinksAvoidDirs) {current path : FilePath}
    (hpath : Plain path) (h : tree.get (current ++ path) = none)
    (hdir : tree.get current = some .dir) :
    tree.walk (tree.follow limit) current path = none := by
  induction path generalizing current with
  | nil => simp [hdir] at h
  | cons name path ih =>
      have hname : Proper name := hpath name (by simp)
      have hassoc : current ++ name :: path = current ++ [name] ++ path := by simp
      rw [hassoc] at h
      rw [walk, if_neg hname.1, if_neg hname.2]
      cases hnode : tree.get (current ++ [name]) with
      | none => rfl
      | some node =>
          have hrest : path ≠ [] := by
            rintro rfl
            simp [hnode] at h
          cases node with
          | dir => exact ih (fun other hother => hpath other (by simp [hother])) h hnode
          | file content => simp [hrest]
          | link target =>
              simp only
              cases hfollow : tree.follow limit target with
              | none => rfl
              | some reached => simp [hrest, hlinks _ _ _ _ hnode hfollow]

/-- A plain path to a directory or a file resolves to itself. -/
theorem resolve_of_get {path : FilePath} {node : Node} (hpath : Plain path)
    (h : tree.get path = some node) (hnode : ∀ target, node ≠ .link target) :
    tree.resolve path = some path :=
  walk_of_get [] hpath h hnode

/-- A plain path to a missing node does not resolve. -/
theorem resolve_of_missing (hlinks : tree.LinksAvoidDirs) {path : FilePath} (hpath : Plain path)
    (h : tree.get path = none) : tree.resolve path = none :=
  walk_of_missing hlinks hpath h tree.get_root

/-- A plain path to a link whose target is a file resolves to the target. -/
theorem resolve_of_link {path target : FilePath} {content : Bytes} (hpath : Plain path)
    (h : tree.get path = some (.link target)) (htarget : Plain target)
    (hfile : tree.get target = some (.file content)) : tree.resolve path = some target := by
  rcases List.eq_nil_or_concat path with rfl | ⟨dir, name, rfl⟩
  · simp at h
  · rw [List.concat_eq_append] at hpath h ⊢
    have hdir : tree.get dir = some .dir := get_of_append (List.cons_ne_nil name []) (by rw [h]; simp)
    have hname : Proper name := hpath name (by simp)
    have hplain : Plain dir := fun other hother => hpath other (by simp [hother])
    have hwalk : tree.walk (tree.follow 40) [] dir = some dir :=
      walk_of_get [] hplain hdir (by simp)
    have hfollow : tree.follow 40 target = some target :=
      walk_of_get [] htarget hfile (by simp)
    rw [resolve, walk_append hwalk hdir, walk, if_neg hname.1, if_neg hname.2, h]
    simp [hfollow]

end FileTree

end FileSystem
