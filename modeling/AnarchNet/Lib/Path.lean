import Mathlib.Data.List.Basic
import Mathlib.Data.List.DropRight
import Mathlib.Data.List.Infix

/-!
# Path texts and their lexical resolution

A path text is a byte string. The system sees it up to its first zero byte and splits it at
the slashes. `components` is that splitting, `FilePath` a list of components, and `normal` the
path left after dropping empty components and dots and letting `..` go up one level.
`StrictlyInside dir path` says that `path` resolves to something below `dir`, not to `dir`
itself.
-/

namespace FileSystem

/-- A byte string. -/
abbrev Bytes := List UInt8

/-- One component of a path. -/
abbrev Name := Bytes

/-- A path as a list of components. -/
abbrev FilePath := List Name

/-- The byte `/`. -/
abbrev slash : UInt8 := 47

/-- The component `.`. -/
abbrev dot : Name := [46]

/-- The component `..`. -/
abbrev dotDot : Name := [46, 46]

/-- The bytes before the first zero byte. -/
def cString (text : Bytes) : Bytes := text.takeWhile (· ≠ 0)

/-- Put one more byte in front of a list of pieces: a slash starts a new piece. -/
def attach (byte : UInt8) (names : FilePath) : FilePath :=
  if byte = slash then [] :: names else (byte :: names.headD []) :: names.tail

/-- Cut a text at every slash; empty pieces are kept. -/
def pieces (text : Bytes) : FilePath := text.foldr attach [[]]

/-- The components of a path text as the system reads it. -/
def components (text : Bytes) : FilePath := pieces (cString text)

/-- A component that stays where it is: an empty one or a dot. -/
def Stays (name : Name) : Prop := name = [] ∨ name = dot

/-- `Stays` compares against two constants. -/
instance (name : Name) : Decidable (Stays name) := inferInstanceAs (Decidable (_ ∨ _))

/-- A component that names an entry of a directory. -/
def Proper (name : Name) : Prop := ¬ Stays name ∧ name ≠ dotDot

/-- `Proper` compares against three constants. -/
instance (name : Name) : Decidable (Proper name) := inferInstanceAs (Decidable (_ ∧ _))

/-- Follow one component lexically. -/
def enter (current : FilePath) (name : Name) : FilePath :=
  if Stays name then current else if name = dotDot then current.dropLast else current ++ [name]

/-- Follow a list of components lexically, starting at `current`. -/
def normal (current path : FilePath) : FilePath := path.foldl enter current

/-- After resolving dots, the path is below `dir` and not `dir` itself. -/
def StrictlyInside (dir path : FilePath) : Prop :=
  dir <+: normal [] path ∧ normal [] path ≠ dir

/-- `StrictlyInside` compares two lists. -/
instance (dir path : FilePath) : Decidable (StrictlyInside dir path) :=
  inferInstanceAs (Decidable (_ ∧ _))

/-- A path without dots and empty components. -/
def Plain (path : FilePath) : Prop := ∀ name ∈ path, Proper name

/-- `Plain` checks each component. -/
instance (path : FilePath) : Decidable (Plain path) :=
  inferInstanceAs (Decidable (∀ name ∈ path, Proper name))

/-- A name that a file system stores: it names an entry, is a text between slashes, and is not
too long. -/
def ValidName (name : Name) : Prop :=
  Proper name ∧ slash ∉ name ∧ (0 : UInt8) ∉ name ∧ name.length ≤ 255

/-- `ValidName` is made of comparisons. -/
instance (name : Name) : Decidable (ValidName name) := inferInstanceAs (Decidable (_ ∧ _))

/-- Trailing slashes aside, the path ends in the name of an entry. -/
def EndsInName (path : FilePath) : Prop := ∃ name, (path.rdropWhile (· = [])).getLast? = some name ∧
  Proper name

/-- `EndsInName` looks at one component. -/
instance (path : FilePath) : Decidable (EndsInName path) :=
  match h : (path.rdropWhile (· = [])).getLast? with
  | none => isFalse (by simp [EndsInName, h])
  | some name => decidable_of_iff (Proper name) (by simp [EndsInName, h])

/-- A path of names that a file system stores. -/
def ValidPath (path : FilePath) : Prop := ∀ name ∈ path, ValidName name

/-- `ValidPath` checks each component. -/
instance (path : FilePath) : Decidable (ValidPath path) :=
  inferInstanceAs (Decidable (∀ name ∈ path, ValidName name))

/-- Valid names are proper. -/
theorem ValidPath.plain {path : FilePath} (h : ValidPath path) : Plain path :=
  fun name hname => (h name hname).1

@[simp] theorem validPath_append {left right : FilePath} :
    ValidPath (left ++ right) ↔ ValidPath left ∧ ValidPath right := by
  simp only [ValidPath, List.mem_append, or_imp, forall_and]

@[simp] theorem validPath_cons {name : Name} {path : FilePath} :
    ValidPath (name :: path) ↔ ValidName name ∧ ValidPath path := by
  simp [ValidPath]

@[simp] theorem validPath_nil : ValidPath [] := by simp [ValidPath]

/-- A beginning of a concatenation ends in the first part or in the second. -/
theorem prefix_append_cases {above left right : FilePath} (h : above <+: left ++ right) :
    above <+: left ∨ ∃ rest, above = left ++ rest ∧ rest <+: right := by
  rcases List.prefix_or_prefix_of_prefix h (List.prefix_append left right) with hpre | hpre
  · exact Or.inl hpre
  · obtain ⟨rest, rfl⟩ := hpre
    exact Or.inr ⟨rest, rfl, (List.prefix_append_right_inj left).1 h⟩

/-- Nothing longer is a beginning of a path. -/
theorem eq_nil_of_append_le {path rest : FilePath} (h : path ++ rest <+: path) : rest = [] := by
  have hlen := h.length_le
  rw [List.length_append] at hlen
  exact List.length_eq_zero_iff.1 (by omega)

/-! ## C strings -/

/-- What follows a zero byte does not matter. -/
theorem cString_append_of_zero_mem {text rest : Bytes} (h : (0 : UInt8) ∈ text) :
    cString (text ++ rest) = cString text := by
  induction text with
  | nil => simp at h
  | cons b text ih =>
      by_cases hb : b = 0
      · simp [cString, hb]
      · have hmem : (0 : UInt8) ∈ text := by
          rcases List.mem_cons.1 h with h | h
          · exact absurd h.symm hb
          · exact h
        simpa [cString, hb] using ih hmem

/-- A text without a zero byte is kept whole in front of anything. -/
theorem cString_append_of_zero_not_mem {text : Bytes} (rest : Bytes) (h : (0 : UInt8) ∉ text) :
    cString (text ++ rest) = text ++ cString rest := by
  induction text with
  | nil => rfl
  | cons b text ih =>
      rw [List.mem_cons, not_or] at h
      simpa [cString, Ne.symm h.1] using ih h.2

/-- A text without a zero byte is its own C string. -/
theorem cString_of_zero_not_mem {text : Bytes} (h : (0 : UInt8) ∉ text) : cString text = text := by
  simpa [cString] using cString_append_of_zero_not_mem [] h

/-! ## Splitting -/

@[simp] theorem pieces_nil : pieces [] = [[]] := rfl

@[simp] theorem pieces_cons (byte : UInt8) (text : Bytes) :
    pieces (byte :: text) = attach byte (pieces text) := rfl

/-- Cutting a text yields at least one piece. -/
theorem pieces_ne_nil (text : Bytes) : pieces text ≠ [] := by
  cases text with
  | nil => simp
  | cons byte text =>
      rw [pieces_cons, attach]
      split <;> simp

/-- A slash between two texts separates their pieces. -/
theorem pieces_append_slash (left right : Bytes) :
    pieces (left ++ slash :: right) = pieces left ++ pieces right := by
  induction left with
  | nil => simp [attach]
  | cons byte left ih =>
      obtain ⟨first, names, hleft⟩ := List.exists_cons_of_ne_nil (pieces_ne_nil left)
      rw [List.cons_append, pieces_cons, pieces_cons, ih, hleft, attach, attach]
      split <;> rfl

/-- A text without a slash is one piece. -/
theorem pieces_of_slash_not_mem {text : Bytes} (h : slash ∉ text) : pieces text = [text] := by
  induction text with
  | nil => rfl
  | cons byte text ih =>
      have hbyte : byte ≠ slash := fun heq => h (by simp [heq])
      rw [pieces_cons, ih (fun hmem => h (List.mem_cons_of_mem _ hmem)), attach, if_neg hbyte]
      rfl

/-- Slashes at the end are empty pieces. -/
theorem pieces_append_slashes (text : Bytes) (count : Nat) :
    pieces (text ++ List.replicate count slash) = pieces text ++ List.replicate count [] := by
  induction count with
  | zero => simp
  | succ count ih =>
      rw [List.replicate_succ', ← List.append_assoc, pieces_append_slash, ih,
        List.replicate_succ', List.append_assoc]
      rfl

/-- An entry of a path text: behind a zero byte it is not seen. -/
theorem components_append_name (text : Bytes) {name : Bytes} (hslash : slash ∉ name)
    (hzero : (0 : UInt8) ∉ name) :
    components (text ++ slash :: name) =
      if (0 : UInt8) ∈ text then components text else components text ++ [name] := by
  split
  · rename_i h
    rw [components, cString_append_of_zero_mem h, components]
  · rename_i h
    have hnot : (0 : UInt8) ∉ slash :: name := by
      rw [List.mem_cons, not_or]
      exact ⟨by decide, hzero⟩
    rw [components, cString_append_of_zero_not_mem _ h, cString_of_zero_not_mem hnot,
      pieces_append_slash, pieces_of_slash_not_mem hslash, components, cString_of_zero_not_mem h]

/-! ## Lexical resolution -/

@[simp] theorem normal_nil (current : FilePath) : normal current [] = current := rfl

@[simp] theorem normal_cons (current : FilePath) (name : Name) (path : FilePath) :
    normal current (name :: path) = normal (enter current name) path := rfl

/-- Resolving a concatenation resolves its parts one after the other. -/
theorem normal_append (current left right : FilePath) :
    normal current (left ++ right) = normal (normal current left) right :=
  List.foldl_append

/-- Components that stay where they are can be dropped. -/
theorem normal_filter (current path : FilePath) :
    normal current (path.filter (· ≠ [])) = normal current path := by
  induction path generalizing current with
  | nil => rfl
  | cons name path ih =>
      by_cases hname : name = []
      · have henter : enter current name = current := by simp [enter, Stays, hname]
        rw [List.filter_cons_of_neg (by simpa using hname), normal_cons, henter, ih]
      · rw [List.filter_cons_of_pos (by simpa using hname), normal_cons, normal_cons, ih]

/-- A path below one of two sibling directories stays below it on its whole way, or it leaves it and
leads from both to the same place. -/
theorem normal_sibling (base path : FilePath) :
    (∀ stage, stage <+: path →
      ∃ rest, ∀ name, normal (base ++ [name]) stage = base ++ name :: rest) ∨
      ∀ left right, normal (base ++ [left]) path = normal (base ++ [right]) path := by
  induction path using List.reverseRecOn with
  | nil => exact Or.inl fun stage hstage => ⟨[], fun name => by rw [List.prefix_nil.1 hstage]; rfl⟩
  | append_singleton path last ih =>
      rcases ih with hstages | hsame
      · obtain ⟨rest, hrest⟩ := hstages path (List.prefix_refl path)
        have hnext : ∀ name, normal (base ++ [name]) (path ++ [last]) =
            enter (base ++ name :: rest) last := fun name => by
          rw [normal_append, hrest, normal_cons, normal_nil]
        by_cases hup : ¬ Stays last ∧ last = dotDot ∧ rest = []
        · -- the way up out of the sibling
          refine Or.inr fun left right => ?_
          obtain ⟨hstays, hlast, rfl⟩ := hup
          rw [hnext, hnext, enter, enter, if_neg hstays, if_pos hlast, if_neg hstays, if_pos hlast,
            List.dropLast_concat, List.dropLast_concat]
        refine Or.inl fun stage hstage => ?_
        rcases List.prefix_concat_iff.1 hstage with rfl | hstage
        · by_cases hstays : Stays last
          · exact ⟨rest, fun name => by rw [hnext, enter, if_pos hstays]⟩
          by_cases hlast : last = dotDot
          · have hne : rest ≠ [] := fun hnil => hup ⟨hstays, hlast, hnil⟩
            refine ⟨rest.dropLast, fun name => ?_⟩
            rw [hnext, enter, if_neg hstays, if_pos hlast,
              List.dropLast_append_of_ne_nil (by simp), List.dropLast_cons_of_ne_nil hne]
          · exact ⟨rest ++ [last], fun name => by simp [hnext, enter, hstays, hlast]⟩
        · exact hstages stage hstage
      · exact Or.inr fun left right => by rw [normal_append, hsame left right, ← normal_append]

/-- A beginning of a filtered path is a filtered beginning. -/
theorem snoc_prefix_filter {stage path : FilePath} {name : Name}
    (h : stage ++ [name] <+: path.filter (· ≠ [])) :
    ∃ front, front ++ [name] <+: path ∧ stage = front.filter (· ≠ []) := by
  induction path generalizing stage with
  | nil => simp at h
  | cons first path ih =>
      by_cases hfirst : first = []
      · rw [List.filter_cons_of_neg (by simpa using hfirst)] at h
        obtain ⟨front, hfront, rfl⟩ := ih h
        exact ⟨first :: front, by simpa using hfront, by simp [hfirst]⟩
      · rw [List.filter_cons_of_pos (by simpa using hfirst)] at h
        cases stage with
        | nil =>
            have heq : name = first := by simpa using h
            exact ⟨[], by simp [heq], rfl⟩
        | cons second stage =>
            rw [List.cons_append, List.cons_prefix_cons] at h
            obtain ⟨rfl, h⟩ := h
            obtain ⟨front, hfront, rfl⟩ := ih h
            exact ⟨second :: front, by simpa using hfront, by simp [hfirst]⟩

/-- A proper component is appended. -/
theorem enter_of_proper {name : Name} (h : Proper name) (current : FilePath) :
    enter current name = current ++ [name] := by
  simp [enter, h.1, h.2]

/-- A plain path is appended unchanged. -/
theorem normal_of_plain {path : FilePath} (h : Plain path) (current : FilePath) :
    normal current path = current ++ path := by
  induction path generalizing current with
  | nil => simp
  | cons name path ih =>
      have hname : Proper name := h name (by simp)
      have hpath : Plain path := fun other hother => h other (by simp [hother])
      rw [normal_cons, enter_of_proper hname, ih hpath]
      simp

/-- Without a component that leads upwards, a path leads below where it starts. -/
theorem prefix_normal {path : FilePath} (h : dotDot ∉ path) (current : FilePath) :
    current <+: normal current path := by
  induction path generalizing current with
  | nil => exact List.prefix_refl _
  | cons name path ih =>
      rw [List.mem_cons, not_or] at h
      have hname : current <+: enter current name := by
        rw [enter, if_neg (Ne.symm h.1)]
        split
        · exact List.prefix_refl _
        · exact List.prefix_append _ _
      exact hname.trans (ih h.2 _)

/-- The stages of such a path lie above each other. -/
theorem normal_prefix_normal {stage path : FilePath} (h : dotDot ∉ path) (hstage : stage <+: path)
    (current : FilePath) : normal current stage <+: normal current path := by
  obtain ⟨rest, rfl⟩ := hstage
  rw [normal_append]
  exact prefix_normal (fun hmem => h (List.mem_append_right _ hmem)) _

/-- A nonempty plain path below a plain directory stays strictly inside it. -/
theorem strictly_inside_of_plain {dir path : FilePath} (hdir : Plain dir) (hpath : Plain path)
    (hne : path ≠ []) : StrictlyInside dir (dir ++ path) := by
  unfold StrictlyInside
  rw [normal_append, normal_of_plain hdir, normal_of_plain hpath]
  simp [hne]

/-- A proper component at the end is a name. -/
theorem endsInName_snoc (path : FilePath) {name : Name} (h : Proper name) :
    EndsInName (path ++ [name]) := by
  refine ⟨name, ?_, h⟩
  rw [List.rdropWhile_concat_neg _ _ _ (by simpa using fun hnil => h.1 (Or.inl hnil))]
  simp

/-- Empty components aside, the last component decides whether a path ends in a name. -/
theorem endsInName_iff {path : FilePath} :
    EndsInName path ↔ ∃ name, (path.filter (· ≠ [])).getLast? = some name ∧ Proper name := by
  have hlast : (path.rdropWhile (· = [])).getLast? = (path.filter (· ≠ [])).getLast? := by
    induction path using List.reverseRecOn with
    | nil => rfl
    | append_singleton path name ih =>
        by_cases hname : name = []
        · rw [List.rdropWhile_concat_pos _ _ _ (by simpa using hname), ih, List.filter_append]
          simp [hname]
        · rw [List.rdropWhile_concat_neg _ _ _ (by simpa using hname), List.filter_append]
          simp [hname]
  rw [EndsInName, hlast]

/-- One more proper component leads strictly below wherever the path led inside. -/
theorem StrictlyInside.snoc {dir path : FilePath} {name : Name} (h : StrictlyInside dir path)
    (hname : Proper name) : StrictlyInside dir (path ++ [name]) := by
  unfold StrictlyInside at h ⊢
  rw [normal_append, normal_cons, normal_nil, enter_of_proper hname]
  refine ⟨h.1.trans (List.prefix_append _ _), fun heq => ?_⟩
  have hlen := h.1.length_le
  have : (normal [] path ++ [name]).length = dir.length := by rw [heq]
  simp only [List.length_append, List.length_singleton] at this
  omega

end FileSystem
