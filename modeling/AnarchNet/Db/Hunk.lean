import AnarchNet.Db.Patches
import AnarchNet.FFStore.Multimap
import AnarchNet.Lib.Replay

/-!
# Patches of one hunk

A patch that replaces the whole text, written as `diff_match_patch` writes a patch of one hunk,
and nothing for a text that does not change. On texts of at most one letter these are the patches
that `diff_match_patch` makes, and it applies them to the texts they were made from. So they can be
written out in front of `diff_match_patch`, which can then be evaluated for these texts. With
patches of one hunk for all texts, which leave a text that they do not find as it is, there is one
library that the assumption on patches covers.
-/

namespace AnarchNet.Hunk

open FileSystem Db Archive DiffMatchPatch EditScript

/-- The coordinates of a text in the head of a hunk. -/
def coordinates : Bytes → Bytes
  | [] => ascii "0,0"
  | [_] => ascii "1"
  | text => ascii "1," ++ decimal text.length

/-- The head line of a hunk. -/
def headLine (old new : Bytes) : Bytes :=
  ascii "@@ -" ++ coordinates old ++ ascii " +" ++ coordinates new ++ ascii " @@"

/-- The line of a text in the body of a hunk; an empty text has none. -/
def line (sign : UInt8) (text : Bytes) : Bytes := if text = [] then [] else sign :: text ++ [10]

/-- The patch from one text to another. -/
def make (old new : Bytes) : Bytes :=
  if old = new then [] else headLine old new ++ 10 :: (line 45 old ++ line 43 new)

/-- Apply a patch to a text. -/
def dmp (patch text : Bytes) : Except Bytes Bytes :=
  if patch = [] then .ok text
  else
    let body := (patch.dropWhile (· ≠ 10)).drop 1
    if line 45 text <+: body then .ok ((body.drop (line 45 text).length).drop 1).dropLast
    else .ok text

/-- The coordinates of a text are one line. -/
theorem newline_not_mem_coordinates (text : Bytes) : (10 : UInt8) ∉ coordinates text := by
  unfold coordinates
  split
  · decide
  · decide
  · rw [List.mem_append, not_or]
    exact ⟨by decide, fun hmem => absurd (le_of_mem_decimal hmem) (by decide)⟩

/-- The head line is one line. -/
theorem newline_not_mem_headLine (old new : Bytes) : (10 : UInt8) ∉ headLine old new := by
  simp only [headLine, List.mem_append, not_or]
  exact ⟨⟨⟨⟨by decide, newline_not_mem_coordinates old⟩, by decide⟩,
    newline_not_mem_coordinates new⟩, by decide⟩

/-- What a line of a text holds. -/
theorem drop_line (sign : UInt8) (text : Bytes) : ((line sign text).drop 1).dropLast = text := by
  unfold line
  split
  · rename_i hnil
    simp [hnil]
  · simp

/-- A patch leads from the text it was made from to the text it was made for. -/
theorem lawful : Replay.Lawful (fun old new => some (make old new)) dmp := by
  intro old new
  refine ⟨_, rfl, ?_⟩
  unfold make
  split
  · rename_i heq
    simp [dmp, heq]
  · have hbody : ((headLine old new ++ 10 :: (line 45 old ++ line 43 new)).dropWhile
        (· ≠ 10)).drop 1 = line 45 old ++ line 43 new := by
      have hhead : ∀ byte ∈ headLine old new, decide (byte ≠ 10) = true := by
        intro byte hbyte
        rw [decide_eq_true_eq]
        rintro rfl
        exact newline_not_mem_headLine old new hbyte
      rw [List.dropWhile_append_of_pos hhead]
      rfl
    rw [dmp, if_neg (by simp), hbody, if_pos (List.prefix_append _ _), List.drop_left, drop_line]

/-- The texts of at most one of some letters. -/
def letters : List Bytes := [[], [97], [98], [99]]

/-- The text is one of them. -/
def isLetter : Bytes → Bool
  | [] | [97] | [98] | [99] => true
  | _ => false

/-- It is in the list then. -/
theorem mem_letters {text : Bytes} (h : isLetter text = true) : text ∈ letters := by
  unfold isLetter at h
  split at h
  · exact List.mem_cons_self
  · exact List.mem_cons_of_mem _ List.mem_cons_self
  · simp [letters]
  · simp [letters]
  · cases h

/-- Between these texts, `diff_match_patch` makes the same patches. -/
theorem patchBetween_letters (clock : Clock) : ∀ old ∈ letters, ∀ new ∈ letters,
    patchBetween clock old new = some (make old new) := by
  intro old hold new hnew
  by_cases heq : old = new
  · rw [heq, patchBetween_self, make, if_pos rfl]
  · have hshort : ∀ text ∈ letters, text.length ≤ 1 := by decide
    cases old with
    | nil =>
        have hcount : ∀ text ∈ letters, encodedLength text < 2 ^ 31 := by decide
        rw [patchBetween_empty clock (hcount new hnew)]
        simp only [letters, List.mem_cons, List.not_mem_nil, or_false] at hnew
        rcases hnew with rfl | rfl | rfl | rfl <;> rfl
    | cons a rest =>
        obtain rfl : rest = [] := by simpa using hshort _ hold
        have hmain := diffMain_letter heq (hshort new hnew) ([a].length + new.length + 1) true
        have hrun : ∀ patches, (untimed (makePatches [a] (⟨.delete, [a]⟩ ::
            if new = [] then [] else [⟨.insert, new⟩]))).run clock = .ok patches clock →
            (patchMake ([a].length + new.length + 2) [a] new).run clock = .ok patches clock := by
          intro patches hpatches
          rw [patchMake, hmain, pure_bind, if_neg (by split <;> simp)]
          exact hpatches
        simp only [letters, List.mem_cons, List.not_mem_nil, or_false, List.cons.injEq, and_true,
          false_or, List.cons_ne_nil] at hold hnew
        rcases hold with rfl | rfl | rfl <;> rcases hnew with rfl | rfl | rfl | rfl <;>
          first
          | exact absurd rfl heq
          | exact patchBetween_eq_some (hrun _ rfl) rfl

/-- It applies them as well. -/
theorem dmp_letters (inexact : Inexact) (what : Native.Stop → Bytes) :
    ∀ old ∈ letters, ∀ new ∈ letters, inexact.dmp what (make old new) old = .ok new := by
  intro old hold new hnew
  simp only [letters, List.mem_cons, List.not_mem_nil, or_false] at hold hnew
  rcases hold with rfl | rfl | rfl | rfl <;> rcases hnew with rfl | rfl | rfl | rfl <;> rfl

/-- `diff_match_patch` and the text archive as a library of the object code, with the patches
between these texts written out. -/
def letterLibrary : Library where
  patch old new :=
    if isLetter old && isLetter new then some (make old new) else patchBetween none old new
  save := writeObject
  load := Archive.load
  load_save := Archive.load_writeObject

/-- Writing the patches out changes nothing. -/
theorem letterLibrary_eq : letterLibrary = DiffMatchPatch.library fun _ _ => none := by
  have hpatch : (fun old new => if isLetter old && isLetter new then some (make old new)
      else patchBetween none old new) = patchBetween none := by
    funext old new
    split
    · next hboth =>
        obtain ⟨hold, hnew⟩ := Bool.and_eq_true_iff.1 hboth
        exact (patchBetween_letters none old (mem_letters hold) new (mem_letters hnew)).symm
    · rfl
  simp only [letterLibrary, DiffMatchPatch.library, hpatch]

/-- `patch_apply`, with the results for these patches written out. -/
def letterDmp (inexact : Inexact) (what : Native.Stop → Bytes) (patch text : Bytes) :
    Except Bytes Bytes :=
  match (letters.flatMap fun old => letters.map fun new => (old, new)).find? fun pair =>
      make pair.1 pair.2 = patch ∧ pair.1 = text with
  | some pair => .ok pair.2
  | none => inexact.dmp what patch text

/-- That changes nothing either. -/
theorem letterDmp_eq (inexact : Inexact) (what : Native.Stop → Bytes) :
    letterDmp inexact what = inexact.dmp what := by
  funext patch text
  rw [letterDmp]
  split
  · next pair hfind =>
      obtain ⟨rfl, rfl⟩ : make pair.1 pair.2 = patch ∧ pair.1 = text := by
        simpa using List.find?_some hfind
      have hmem := List.mem_of_find?_eq_some hfind
      simp only [List.mem_flatMap, List.mem_map] at hmem
      obtain ⟨old, hold, new, hnew, rfl⟩ := hmem
      exact (dmp_letters inexact what old hold new hnew).symm
  · rfl

/-- `patch_apply` where the search for other places finds none. -/
def letterApply : Bytes → Bytes → Except Bytes Bytes := letterDmp .nothing fun _ => []

/-- The patches of one hunk and the text archive as a library of the object code. -/
def library : Library where
  patch old new := some (make old new)
  save := writeObject
  load := Archive.load
  load_save := Archive.load_writeObject

/-- A store in the directory `/data` with the digests of the empty patch and of patches between
the empty text and the texts `a`, `b` and `c`. -/
def store : FFStore :=
  FFStore.initialise (.ofDigests
    [([], digest
        0xcf83e1357eefb8bdf1542850d66d8007d620e4050b5715dc83f4a921d36ce9ce
        0x47d0d13c5d85f2b0ff8318d2877eec2f63b931bd47417a81a538327af927da3e),
      (ascii "@@ -0,0 +1 @@\n+a\n", digest
        0x4c0a1b70c37781dfc95b58e7a7a5f7bf4d605b09b3cbbc13dc5763ffa637fb98
        0xb31b649dc8011a4044e9726e4d6d462deec415a3027d65c396599bb7edfe7562),
      (ascii "@@ -1 +1 @@\n-a\n+b\n", digest
        0xc17f725911fdb545a5b01b236b22eafc540792ec84ef944387239a9ea1e751b9
        0x5bd9737a5ba1136b1b32bad6832e0faec40dfa758f1d3bb08520798ed63d5f92),
      (ascii "@@ -1 +1 @@\n-b\n+a\n", digest
        0x7f822b3576cb0a99f9b03033ce45837df423f3ba1d2e7aa0a2e814cfef8ffc2a
        0xa4a8a14e0e6d4294a8b5c1cc89b69839b1cf72e06589f944a853d4ed0c8b1136),
      (ascii "@@ -1 +1 @@\n-a\n+c\n", digest
        0x15b7c5b3e8213f9942e1c5bcd78d245349e57440d65669afe740112468d1b7f5
        0x9412c5bddae18899064f0b80fbac9d9b5966bf4ce91379a275930434b9dde172)])
    [[100, 97, 116, 97]] validPath_data

/-- The daemon over this store, with the patches of `diff_match_patch`. -/
def daemon : Daemon where
  sha := store.sha
  library := letterLibrary
  plugins := [store.plugin FFStore.plainPlatform]

/-- The daemon over this store, with patches of one hunk for all texts. -/
def lawfulDaemon : Daemon := { daemon with library := library }

end AnarchNet.Hunk
