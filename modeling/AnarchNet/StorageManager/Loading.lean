import AnarchNet.StorageManager.Basic

/-!
# Loading a mounted file

`load_file` reads a header and the blocks that it names. The header is data from elsewhere.
`harmless_iff` says for which headers the reading stays inside of them and within the ranges of its
numbers, and `loaded_iff` for which files the blocks are those that the header names.
-/

namespace AnarchNet

open FileSystem Native EStateM

namespace StorageManager

variable {manager : StorageManager} {header : Bytes} {file : File}

/-- The number of whole ids that fit behind the header in a block. -/
def idsPerBlock (manager : StorageManager) : Nat :=
  (manager.blocksize - blockHeaderSize) / anIdLength

/-- The first id behind a header, as a text that ends at a zero. -/
def firstId (header : Bytes) : Bytes := cString ((header.drop blockHeaderSize).take anIdLength)

section Blocks

variable {count : Nat} {block : Bytes}

/-- No block is needed. -/
theorem run_loadBlocks_zero (file : File) (notes : Notes) :
    (manager.loadBlocks header blockHeaderSize 0 file).run notes = .ok file notes := rfl

/-- The first id is not all there. -/
theorem run_loadBlocks_outside (hcount : 0 < count)
    (hshort : header.length < blockHeaderSize + anIdLength) (file : File) (notes : Notes) :
    (manager.loadBlocks header blockHeaderSize count file).run notes = .error .outside notes := by
  obtain ⟨left, rfl⟩ := Nat.exists_eq_add_of_lt hcount
  rw [zero_add, loadBlocks, run_bind, run_copyOut_outside hshort]

/-- The first block is not delivered. -/
theorem run_loadBlocks_thrown (hcount : 0 < count)
    (hlong : blockHeaderSize + anIdLength ≤ header.length)
    (hblock : manager.getBlock (firstId header) = none) (file : File) (notes : Notes) :
    (manager.loadBlocks header blockHeaderSize count file).run notes = .error .thrown notes := by
  obtain ⟨left, rfl⟩ := Nat.exists_eq_add_of_lt hcount
  rw [zero_add, loadBlocks, run_bind, run_copyOut hlong]
  simp only [show cString ((header.drop blockHeaderSize).take anIdLength) = firstId header from rfl,
    hblock]
  rfl

/-- The first block is loaded every time. -/
theorem run_loadBlocks (hlong : blockHeaderSize + anIdLength ≤ header.length)
    (hblock : manager.getBlock (firstId header) = some block) (count : Nat) (file : File)
    (notes : Notes) :
    (manager.loadBlocks header blockHeaderSize count file).run notes = .ok { file with
      blockIds := file.blockIds ++ List.replicate count (firstId header)
      dataBlocks := file.dataBlocks ++ List.replicate count (.delivered block) } notes := by
  induction count generalizing file with
  | zero => simp [loadBlocks]
  | succ count ih =>
      rw [loadBlocks, run_bind, run_copyOut hlong]
      simp only [show cString ((header.drop blockHeaderSize).take anIdLength) = firstId header
        from rfl, hblock, ih, List.append_assoc, List.singleton_append, List.replicate_succ]

end Blocks

/-- A header that is too short. -/
theorem run_loadHeader_short (hshort : header.length < blockHeaderSize) (file : File)
    (notes : Notes) : (manager.loadHeader header file).run notes = .error .thrown notes := by
  rw [loadHeader, if_pos hshort]
  rfl

section Header

variable (hlong : blockHeaderSize ≤ header.length) (hpos : 0 < manager.blocksize)

include hlong hpos

/-- A size that needs more blocks than an `int` can hold. -/
theorem run_loadHeader_range (hsize : 2 ^ 31 ≤ headerSize header / manager.blocksize) (file : File)
    (notes : Notes) : (manager.loadHeader header file).run notes = .error .range notes := by
  rw [loadHeader, if_neg (by omega)]
  simp only [run_bind, run_quotient hpos, run_floatToInt_of_le hsize]

variable (hsize : headerSize header / manager.blocksize < 2 ^ 31)

include hsize

/-- In a block smaller than a header the number of ids is not one of an `int`. -/
theorem run_loadHeader_small (hsmall : manager.blocksize < blockHeaderSize) (file : File)
    (notes : Notes) :
    ∃ last, (manager.loadHeader header file).run notes = .error .range last := by
  have hroom : 2 ^ 31 ≤
      (((manager.blocksize : Int) - blockHeaderSize) % 2 ^ 64).toNat / anIdLength := by
    simp only [blockHeaderSize, anIdLength] at hsmall ⊢
    omega
  rw [loadHeader, if_neg (by omega)]
  simp only [run_bind, run_quotient hpos, run_floatToInt hsize, noteExact, run_modify,
    run_floatToInt_of_le hroom]
  exact ⟨_, rfl⟩

variable (hblock : blockHeaderSize ≤ manager.blocksize) (hint : manager.blocksize < 2 ^ 31)

include hblock hint

/-- With room for ids, what is done depends on whether they are enough. -/
theorem run_loadHeader_room (file : File) (notes : Notes) :
    (manager.loadHeader header file).run notes =
      (if manager.idsPerBlock < headerSize header / manager.blocksize then throw Stop.thrown
      else do
        let size ← int (headerSize header)
        manager.loadBlocks header blockHeaderSize (headerSize header / manager.blocksize)
          { file with size := size }).run notes := by
  have hmod : ((manager.blocksize : Int) - blockHeaderSize) % 2 ^ 64 =
      (manager.blocksize : Int) - blockHeaderSize := by
    simp only [blockHeaderSize, anIdLength] at hblock ⊢
    omega
  have hroom : ((manager.blocksize : Int) - blockHeaderSize).toNat / anIdLength =
      manager.idsPerBlock := by
    rw [idsPerBlock]
    congr 1
    omega
  have hids : manager.idsPerBlock < 2 ^ 31 :=
    ((Nat.div_le_self _ _).trans (Nat.sub_le _ _)).trans_lt hint
  rw [loadHeader, if_neg (by omega)]
  simp only [run_bind, run_quotient hpos, run_floatToInt hsize, noteExact, run_modify, hmod,
    decide_true, Bool.and_true, hroom, run_floatToInt hids]

/-- A file that needs more than one header. -/
theorem run_loadHeader_many (hmany : manager.idsPerBlock < headerSize header / manager.blocksize)
    (file : File) (notes : Notes) :
    (manager.loadHeader header file).run notes = .error .thrown notes := by
  rw [run_loadHeader_room hlong hpos hsize hblock hint, if_pos hmany]
  rfl

/-- A file with one header. -/
theorem run_loadHeader (hone : headerSize header / manager.blocksize ≤ manager.idsPerBlock)
    (file : File) (notes : Notes) :
    (manager.loadHeader header file).run notes =
      (manager.loadBlocks header blockHeaderSize (headerSize header / manager.blocksize)
        { file with size := Int.bmod (headerSize header) (2 ^ 32) }).run { notes with
          exact := notes.exact &&
            decide (Int.bmod (headerSize header) (2 ^ 32) = (headerSize header : Int)) } := by
  rw [run_loadHeader_room hlong hpos hsize hblock hint, if_neg (by omega), run_bind, run_int]

end Header

/-! ## Headers from elsewhere -/

/-- No access leads outside, every number keeps its value, and a run that does not return throws. -/
def Harmless (result : Result Stop Notes File) : Prop :=
  result.state.exact = true ∧ ∀ stop last, result = .error stop last → stop = .thrown

/-- The header of a file that needs one header, or more, and then no other: its size is a number of
an `int`, and it has an id if the file needs a block. -/
def Sound (manager : StorageManager) (header : Bytes) : Prop :=
  blockHeaderSize ≤ header.length → blockHeaderSize ≤ manager.blocksize ∧
    headerSize header / manager.blocksize < 2 ^ 31 ∧
    (headerSize header / manager.blocksize ≤ manager.idsPerBlock → headerSize header < 2 ^ 31 ∧
      (0 < headerSize header / manager.blocksize →
        blockHeaderSize + anIdLength ≤ header.length))

/-- Loading from a header comes to its end, when nothing leads outside. -/
def Loads (manager : StorageManager) (header : Bytes) : Prop :=
  blockHeaderSize ≤ header.length ∧
    headerSize header / manager.blocksize ≤ manager.idsPerBlock ∧
    (0 < headerSize header / manager.blocksize → (manager.getBlock (firstId header)).isSome)

/-- Every header that the loop over the entries comes to is sound. -/
def Guarded (manager : StorageManager) : KvResMap → Prop
  | [] => True
  | (_, entry) :: rest =>
      if IsOld entry then
        ∀ header, manager.getBlock (entry.take anIdLength) = some header →
          manager.Sound header ∧ (manager.Loads header → Guarded manager rest)
      else Guarded manager rest

/-- A number that was cut stays noted while blocks are loaded. -/
theorem preserves_loadBlocks (header : Bytes) (offset count : Nat) (file : File) :
    Preserves Notes.Later (manager.loadBlocks header offset count file) := by
  induction count generalizing file with
  | zero => exact Preserves.pure _
  | succ count ih =>
      refine Preserves.bind (preserves_copyOut _ _ _) fun hash => ?_
      cases manager.getBlock (cString hash) with
      | none => exact Preserves.throw _
      | some block => exact ih _

/-- A number that was cut stays noted while a header is read. -/
theorem preserves_loadHeader (header : Bytes) (file : File) :
    Preserves Notes.Later (manager.loadHeader header file) :=
  Preserves.ite (fun _ => Preserves.throw _) fun _ =>
    (preserves_quotient _ _).bind fun _ => (preserves_floatToInt _).bind fun _ =>
      (preserves_noteExact _).bind fun _ => (preserves_floatToInt _).bind fun _ =>
        Preserves.ite (fun _ => Preserves.throw _) fun _ =>
          (preserves_int _).bind fun _ => preserves_loadBlocks _ _ _ _

/-- A number that was cut stays noted in the loop over the entries. -/
theorem preserves_loadEntries (entries : KvResMap) (file : File) :
    Preserves Notes.Later (manager.loadEntries entries file) := by
  induction entries generalizing file with
  | nil => exact Preserves.pure _
  | cons entry rest ih =>
      refine Preserves.ite (fun _ => ?_) fun _ => ih file
      cases manager.getBlock (entry.2.take anIdLength) with
      | none => exact Preserves.throw _
      | some header => exact (preserves_loadHeader header file).bind fun file => ih file

/-- A program that stops without a throw does harm, whatever was to come after. -/
theorem not_harmless_of_stop {program : Program File} {stop : Stop} {notes last : Notes}
    (hrun : program.run notes = .error stop last) (hstop : stop ≠ .thrown)
    (next : File → Program File) : ¬ Harmless ((program >>= next).run notes) := by
  rintro ⟨-, hthrown⟩
  exact hstop (hthrown stop last (by rw [run_bind, hrun]))

/-- A program that begins with a number that was cut does harm. -/
theorem not_harmless_of_cut {program : Program File} {notes : Notes}
    (hlater : Preserves Notes.Later program) (hcut : notes.exact = false) :
    ¬ Harmless (program.run notes) := by
  rintro ⟨hexact, -⟩
  have hbefore : notes.exact = true := hlater notes hexact
  rw [hcut] at hbefore
  exact Bool.noConfusion hbefore

/-- What reading a header comes to: harm, a throw, or a file. -/
inductive HeaderRun (manager : StorageManager) (header : Bytes) (file : File) (notes : Notes) : Prop
  | harm (hsound : ¬ manager.Sound header)
      (hharm : ∀ next : File → Program File, (∀ after, Preserves Notes.Later (next after)) →
        ¬ Harmless ((manager.loadHeader header file >>= next).run notes))
  | thrown (hsound : manager.Sound header) (hloads : ¬ manager.Loads header)
      (hrun : (manager.loadHeader header file).run notes = .error .thrown notes)
  | loaded (hsound : manager.Sound header) (hloads : manager.Loads header) (after : File)
      (hrun : (manager.loadHeader header file).run notes = .ok after notes)

/-- Reading the blocks of a header that needs no other one. -/
theorem headerRun_one (hpos : 0 < manager.blocksize) (hint : manager.blocksize < 2 ^ 31)
    (hlong : blockHeaderSize ≤ header.length) (hblock : blockHeaderSize ≤ manager.blocksize)
    (hsize : headerSize header / manager.blocksize < 2 ^ 31)
    (hone : headerSize header / manager.blocksize ≤ manager.idsPerBlock) (file : File)
    (notes : Notes) : HeaderRun manager header file notes := by
  have hrun := run_loadHeader hlong hpos hsize hblock hint hone file notes
  rcases Nat.lt_or_ge (headerSize header) (2 ^ 31) with hsmall | hlarge
  · have hkept : Int.bmod (headerSize header) (2 ^ 32) = (headerSize header : Int) :=
      bmod_eq_self_iff.2 ⟨by omega, by omega⟩
    simp only [hkept, decide_true, Bool.and_true] at hrun
    rcases Nat.eq_zero_or_pos (headerSize header / manager.blocksize) with hzero | hneeds
    · rw [hzero] at hrun
      exact .loaded (fun _ => ⟨hblock, hsize, fun _ => ⟨hsmall, fun hneeds => by omega⟩⟩)
        ⟨hlong, hone, fun hneeds => by omega⟩ _ hrun
    · rcases Nat.lt_or_ge header.length (blockHeaderSize + anIdLength) with hshort | hids
      · rw [run_loadBlocks_outside hneeds hshort] at hrun
        refine .harm (fun hsound => ?_) fun next _ => not_harmless_of_stop hrun (by decide) next
        exact absurd (((hsound hlong).2.2 hone).2 hneeds) (by omega)
      · have hsound : manager.Sound header := fun _ =>
          ⟨hblock, hsize, fun _ => ⟨hsmall, fun _ => hids⟩⟩
        cases hfirst : manager.getBlock (firstId header) with
        | none =>
            rw [run_loadBlocks_thrown hneeds hids hfirst] at hrun
            refine .thrown hsound (fun hloads => ?_) hrun
            have hsome := hloads.2.2 hneeds
            simp [hfirst] at hsome
        | some block =>
            rw [run_loadBlocks hids hfirst] at hrun
            exact .loaded hsound ⟨hlong, hone, fun _ => by simp [hfirst]⟩ _ hrun
  · -- the size is cut to an `int`
    have hcut : Int.bmod (headerSize header) (2 ^ 32) ≠ (headerSize header : Int) := by
      rw [ne_eq, bmod_eq_self_iff]
      omega
    refine .harm (fun hsound => ?_) fun next hnext => ?_
    · exact absurd ((hsound hlong).2.2 hone).1 (by omega)
    · rw [run_bind, hrun, ← run_bind]
      refine not_harmless_of_cut ((preserves_loadBlocks _ _ _ _).bind hnext) ?_
      simp only [hcut, decide_false, Bool.and_false]

/-- Reading a header. -/
theorem headerRun (hpos : 0 < manager.blocksize) (hint : manager.blocksize < 2 ^ 31)
    (header : Bytes) (file : File) (notes : Notes) :
    HeaderRun manager header file notes := by
  rcases Nat.lt_or_ge header.length blockHeaderSize with hshort | hlong
  · exact .thrown (fun hlong => absurd hlong (by omega)) (fun hloads => absurd hloads.1 (by omega))
      (run_loadHeader_short hshort file notes)
  rcases Nat.lt_or_ge (headerSize header / manager.blocksize) (2 ^ 31) with hsize | hrange
  · rcases Nat.lt_or_ge manager.blocksize blockHeaderSize with hsmall | hblock
    · obtain ⟨last, hrun⟩ := run_loadHeader_small hlong hpos hsize hsmall file notes
      exact .harm (fun hsound => absurd (hsound hlong).1 (by omega))
        fun next _ => not_harmless_of_stop hrun (by decide) next
    · rcases Nat.lt_or_ge manager.idsPerBlock (headerSize header / manager.blocksize) with
        hmany | hone
      · exact .thrown (fun _ => ⟨hblock, hsize, fun hone => absurd hone (by omega)⟩)
          (fun hloads => absurd hloads.2.1 (by omega))
          (run_loadHeader_many hlong hpos hsize hblock hint hmany file notes)
      · exact headerRun_one hpos hint hlong hblock hsize hone file notes
  · exact .harm (fun hsound => absurd (hsound hlong).2.1 (by omega)) fun next _ =>
      not_harmless_of_stop (run_loadHeader_range hlong hpos hrange file notes) (by decide) next

/-- The loop over the entries does no harm exactly if the headers that it comes to are sound. -/
theorem harmless_loadEntries_iff (hpos : 0 < manager.blocksize) (hint : manager.blocksize < 2 ^ 31)
    (entries : KvResMap) (file : File) {notes : Notes} (hexact : notes.exact = true) :
    Harmless ((manager.loadEntries entries file).run notes) ↔ manager.Guarded entries := by
  induction entries generalizing file with
  | nil => exact iff_of_true ⟨hexact, by simp [loadEntries]⟩ trivial
  | cons entry rest ih =>
      rw [← Prod.eta entry, loadEntries, Guarded]
      by_cases hold : IsOld entry.2
      · rw [if_pos hold, if_pos hold]
        cases hblock : manager.getBlock (entry.2.take anIdLength) with
        | none => exact iff_of_true ⟨hexact, by simp⟩ (by simp)
        | some header =>
            simp only [Option.some.injEq, forall_eq']
            rcases headerRun hpos hint header file notes with
              ⟨hsound, hharm⟩ | ⟨hsound, hloads, hrun⟩ | ⟨hsound, hloads, after, hrun⟩
            · exact iff_of_false (hharm _ fun after => preserves_loadEntries rest after)
                fun h => hsound h.1
            · refine iff_of_true ?_ ⟨hsound, fun h => absurd h hloads⟩
              rw [run_bind, hrun]
              exact ⟨hexact, by simp⟩
            · rw [run_bind, hrun]
              exact (ih after).trans ⟨fun h => ⟨hsound, fun _ => h⟩, fun h => h.2 hloads⟩
      · rw [if_neg hold, if_neg hold]
        exact ih file

/-- Loading a file stays inside of its headers and within the ranges of its numbers exactly if every
header that it comes to is sound. -/
theorem harmless_iff (manager : StorageManager) (blockOffset : Int) (id : Bytes)
    (hpos : 1 ≤ manager.blocksize) (hint : manager.blocksize < 2 ^ 31) :
    Harmless ((manager.loadFile blockOffset id).run .clean) ↔
      ∀ entries, manager.kvGet (manager.sha.hash (ascii "DataMap" ++ id)) = some entries →
        manager.Guarded entries := by
  rw [loadFile]
  cases manager.kvGet (manager.sha.hash (ascii "DataMap" ++ id)) with
  | none => exact iff_of_true ⟨rfl, by simp⟩ (by simp)
  | some entries =>
      simp only [Option.some.injEq, forall_eq']
      exact harmless_loadEntries_iff hpos hint entries (.new blockOffset) rfl

/-- A manager with one entry, of an old file, and one block. -/
def oneBlock (blocksize : Nat) (block : Bytes) : StorageManager where
  sha := .ofDigests []
  blocksize := blocksize
  kvGet := fun _ => some [([], List.replicate 64 48 ++ [68, 72])]
  getBlock := fun _ => some block

/-- A header with the id of the one block that its file needs. -/
theorem harmless_one_id :
    Harmless (((oneBlock 136 (136 :: List.replicate 135 0)).loadFile 0 []).run .clean) := by
  refine (harmless_iff (oneBlock 136 (136 :: List.replicate 135 0)) 0 [] (by decide)
    (by decide)).2 ?_
  rintro entries ⟨⟩
  refine (if_pos (by decide)).mpr ?_
  rintro header ⟨⟩
  exact ⟨fun _ => by decide +kernel, fun _ => trivial⟩

/-- A header without the id of the block that its file needs. -/
theorem harm_no_id :
    ¬ Harmless (((oneBlock 136 (136 :: List.replicate 71 0)).loadFile 0 []).run .clean) := by
  intro h
  have hguarded := (harmless_loadEntries_iff (by decide) (by decide) _ _ rfl).1 h
  have hsound := ((if_pos (by decide)).mp hguarded (136 :: List.replicate 71 0) rfl).1
  exact absurd (((hsound (by decide)).2.2 (by decide +kernel)).2 (by decide +kernel)) (by decide)

/-! ## The blocks of a file -/

/-- The one old entry of a file names a header, with a size, an id and the ids of blocks, all of
which are delivered. -/
structure HasHeader (manager : StorageManager) (id : Bytes) (size : Nat) (sizeField next : Bytes)
    (ids : List Bytes) (rest : Bytes) : Prop where
  entries : ∃ before name entry after,
    manager.kvGet (manager.sha.hash (ascii "DataMap" ++ id)) =
        some (before ++ (name, entry) :: after) ∧
      IsOld entry ∧ (∀ other ∈ before ++ after, ¬ IsOld other.2) ∧
      manager.getBlock (entry.take anIdLength) = some (sizeField ++ next ++ ids.flatten ++ rest)
  sizeField : sizeField.length = 8 ∧ uintValue sizeField = size
  next : next.length = anIdLength
  whole : ∀ hash ∈ ids, hash.length = anIdLength ∧ 0 ∉ hash
  delivered : ∀ hash ∈ ids, (manager.getBlock hash).isSome

/-- The number of blocks that a file needs. -/
def blocksNeeded (manager : StorageManager) (size : Nat) : Nat :=
  (size + manager.blocksize - 1) / manager.blocksize

/-- The file is loaded with the ids of its header and their blocks, all in order, and with its size;
or it needs more than one header, and loading it throws. -/
def Yields (manager : StorageManager) (blockOffset : Int) (id : Bytes) (size : Nat)
    (ids : List Bytes) : Prop :=
  (manager.blocksNeeded size ≤ manager.idsPerBlock → ∃ file notes,
    (manager.loadFile blockOffset id).run .clean = .ok file notes ∧
      file.blockIds = ids.take (manager.blocksNeeded size) ∧
      file.dataBlocks.map some = (ids.take (manager.blocksNeeded size)).map (fun hash =>
        (manager.getBlock hash).map Block.delivered) ∧
      file.size = size) ∧
  (manager.idsPerBlock < manager.blocksNeeded size → ∃ notes,
    (manager.loadFile blockOffset id).run .clean = .error .thrown notes)

/-- As many blocks are needed as there are whole ones exactly if the size is that of whole
blocks. -/
theorem whole_iff {size : Nat} (hpos : 0 < manager.blocksize) :
    size / manager.blocksize = manager.blocksNeeded size ↔ manager.blocksize ∣ size := by
  have hmod := Nat.mod_lt size hpos
  have hneeded : manager.blocksNeeded size = size / manager.blocksize +
      (size % manager.blocksize + manager.blocksize - 1) / manager.blocksize := by
    have hsplit : size + manager.blocksize - 1 = size % manager.blocksize + manager.blocksize - 1 +
        manager.blocksize * (size / manager.blocksize) := by
      have := Nat.mod_add_div size manager.blocksize
      omega
    rw [blocksNeeded, hsplit, Nat.add_mul_div_left _ _ hpos, add_comm]
  rw [hneeded, Nat.dvd_iff_mod_eq_zero]
  constructor
  · intro h
    have hnone : size % manager.blocksize + manager.blocksize - 1 < manager.blocksize := by
      have hzero : (size % manager.blocksize + manager.blocksize - 1) / manager.blocksize = 0 := by
        omega
      exact (Nat.div_eq_zero_iff_lt hpos).mp hzero
    omega
  · intro h
    have hnone : (0 + manager.blocksize - 1) / manager.blocksize = 0 :=
      Nat.div_eq_of_lt (by omega)
    rw [h, hnone, add_zero]

section Yields

variable {id sizeField next rest : Bytes} {size : Nat} {ids : List Bytes}

/-- Entries that are not of old files are passed over. -/
theorem loadEntries_append {before : KvResMap} (hbefore : ∀ other ∈ before, ¬ IsOld other.2)
    (entries : KvResMap) (file : File) :
    manager.loadEntries (before ++ entries) file = manager.loadEntries entries file := by
  induction before with
  | nil => rfl
  | cons entry before ih =>
      rw [List.cons_append, ← Prod.eta entry, loadEntries, if_neg (hbefore entry (by simp))]
      exact ih fun other hother => hbefore other (by simp [hother])

/-- Loading a file with one header reads that header. -/
theorem HasHeader.run_loadFile (h : HasHeader manager id size sizeField next ids rest)
    (blockOffset : Int) (notes : Notes) : (manager.loadFile blockOffset id).run notes =
      (manager.loadHeader (sizeField ++ next ++ ids.flatten ++ rest) (.new blockOffset)).run
        notes := by
  obtain ⟨before, name, entry, after, hentries, hold, hother, hblock⟩ := h.entries
  have hafter : ∀ file, manager.loadEntries after file = pure file := fun file => by
    rw [← List.append_nil after, loadEntries_append fun other hmem =>
      hother other (List.mem_append_right _ hmem)]
    rfl
  simp only [loadFile, hentries]
  rw [loadEntries_append fun other hmem => hother other (List.mem_append_left _ hmem), loadEntries,
    if_pos hold, hblock]
  simp only [hafter, bind_pure]

/-- The size of a header. -/
theorem HasHeader.headerSize_eq (h : HasHeader manager id size sizeField next ids rest) :
    headerSize (sizeField ++ next ++ ids.flatten ++ rest) = size := by
  rw [headerSize, List.append_assoc, List.append_assoc, ← h.sizeField.1, List.take_left,
    h.sizeField.2]

/-- A header is long enough. -/
theorem HasHeader.length_header (h : HasHeader manager id size sizeField next ids rest) :
    blockHeaderSize + ids.flatten.length ≤ (sizeField ++ next ++ ids.flatten ++ rest).length := by
  simp only [List.length_append, h.sizeField.1, h.next, blockHeaderSize]
  omega

/-- The first id of a header. -/
theorem HasHeader.firstId_eq {first : Bytes}
    (h : HasHeader manager id size sizeField next (first :: ids) rest) :
    firstId (sizeField ++ next ++ (first :: ids).flatten ++ rest) = first := by
  have hfront : (sizeField ++ next).length = blockHeaderSize := by
    rw [List.length_append, h.sizeField.1, h.next]
  obtain ⟨hlength, hzero⟩ := h.whole first (by simp)
  rw [firstId, List.append_assoc, ← hfront, List.drop_left, List.flatten_cons, List.append_assoc,
    ← hlength, List.take_left, cString_of_zero_not_mem hzero]

/-- A header that needs no other one is loaded with its first id and block, every time. -/
theorem HasHeader.run_loadFile_one {first : Bytes}
    (h : HasHeader manager id size sizeField next (first :: ids) rest)
    (hblock : blockHeaderSize < manager.blocksize) (hint : manager.blocksize < 2 ^ 31)
    (hone : size / manager.blocksize ≤ manager.idsPerBlock) (blockOffset : Int) :
    ∃ file block notes, manager.getBlock first = some block ∧
      (manager.loadFile blockOffset id).run .clean = .ok file notes ∧
      file.blockIds = List.replicate (size / manager.blocksize) first ∧
      file.dataBlocks =
        List.replicate (size / manager.blocksize) (.delivered block) ∧
      file.size = Int.bmod size (2 ^ 32) := by
  obtain ⟨block, hdelivered⟩ := Option.isSome_iff_exists.mp (h.delivered first (by simp))
  have hlength := h.length_header
  have hfirst : blockHeaderSize + anIdLength ≤
      (sizeField ++ next ++ (first :: ids).flatten ++ rest).length := by
    have hid : (first :: ids).flatten.length = anIdLength + ids.flatten.length := by
      rw [List.flatten_cons, List.length_append, (h.whole first (by simp)).1]
    omega
  have hids : manager.idsPerBlock < 2 ^ 31 :=
    ((Nat.div_le_self _ _).trans (Nat.sub_le _ _)).trans_lt hint
  have hrun := run_loadHeader (le_of_add_le_left hlength) (by omega)
    (by rw [h.headerSize_eq]; omega) hblock.le hint (by rwa [h.headerSize_eq]) (.new blockOffset)
    .clean
  rw [run_loadBlocks hfirst (by rw [h.firstId_eq]; exact hdelivered), h.headerSize_eq,
    h.firstId_eq, ← h.run_loadFile] at hrun
  exact ⟨_, block, _, hdelivered, hrun, by simp [File.new], by simp [File.new], by simp⟩

end Yields

/-- A file yields its blocks exactly if it consists of whole blocks that are all the same, and has a
size that fits an `int`; and loading a file that needs more than one header throws exactly if its
whole blocks alone do, and are as many as an `int` can hold. -/
theorem loaded_iff {manager : StorageManager} {id sizeField next rest : Bytes} {size : Nat}
    {ids : List Bytes} (h : HasHeader manager id size sizeField next ids rest)
    (hblock : blockHeaderSize < manager.blocksize) (hint : manager.blocksize < 2 ^ 31)
    (henough : manager.blocksNeeded size ≤ ids.length) (blockOffset : Int) :
    Yields manager blockOffset id size ids ↔
      (manager.blocksNeeded size ≤ manager.idsPerBlock →
        manager.blocksize ∣ size ∧ size < 2 ^ 31 ∧
          ∀ hash ∈ ids.take (manager.blocksNeeded size), ids.head? = some hash) ∧
      (manager.idsPerBlock < manager.blocksNeeded size →
        manager.idsPerBlock < size / manager.blocksize ∧
          size / manager.blocksize < 2 ^ 31) := by
  have hheader := h.headerSize_eq
  have hpos : 0 < manager.blocksize := by omega
  have hids : manager.idsPerBlock < 2 ^ 31 :=
    ((Nat.div_le_self _ _).trans (Nat.sub_le _ _)).trans_lt hint
  have hle : size / manager.blocksize ≤ manager.blocksNeeded size :=
    Nat.div_le_div_right (by omega)
  have hwhole : size / manager.blocksize = manager.blocksNeeded size ↔ manager.blocksize ∣ size :=
    whole_iff hpos
  unfold Yields
  refine and_congr (imp_congr_right fun hfew => ?_) (imp_congr_right fun hmany => ?_)
  · -- one header is enough
    have hcut : ((size : Int).bmod (2 ^ 32) = size) ↔ size < 2 ^ 31 := by
      rw [bmod_eq_self_iff]
      omega
    cases ids with
    | nil =>
        have hzero : size = 0 := by
          have hdiv : manager.blocksNeeded size = 0 := Nat.le_zero.mp henough
          rw [blocksNeeded, Nat.div_eq_zero_iff] at hdiv
          omega
        have hrun := run_loadHeader (le_of_add_le_left h.length_header) hpos
          (by rw [hheader]; omega) hblock.le hint (by rw [hheader]; exact hle.trans hfew)
          (.new blockOffset) .clean
        rw [← h.run_loadFile, hheader] at hrun
        rw [hzero, Nat.zero_div, run_loadBlocks_zero] at hrun
        refine iff_of_true ⟨_, _, hrun, ?_, ?_, ?_⟩ ⟨?_, by omega, by simp⟩
        · simp [File.new]
        · simp [File.new]
        · simp [hzero]
        · simp [hzero]
    | cons first tail =>
        obtain ⟨file, block, notes, hdelivered, hrun, hids, hblocks, hsize⟩ :=
          h.run_loadFile_one hblock hint (hle.trans hfew) blockOffset
        constructor
        · rintro ⟨loaded, after, hload, hloadedIds, -, hloadedSize⟩
          rw [hrun, Result.ok.injEq] at hload
          rw [← hload.1, hids] at hloadedIds
          rw [← hload.1, hsize] at hloadedSize
          obtain ⟨hlength, hsame⟩ := List.eq_replicate_iff.mp hloadedIds.symm
          rw [List.length_take, Nat.min_eq_left henough] at hlength
          exact ⟨hwhole.1 hlength.symm, hcut.1 hloadedSize,
            fun hash hhash => by simp [hsame hash hhash]⟩
        · rintro ⟨hdvd, hsmall, hsame⟩
          have htake : List.replicate (size / manager.blocksize) first =
              (first :: tail).take (manager.blocksNeeded size) := by
            refine (List.eq_replicate_iff.mpr ⟨?_, fun hash hhash => ?_⟩).symm
            · rw [List.length_take, Nat.min_eq_left henough, hwhole.2 hdvd]
            · simpa using (hsame hash hhash).symm
          refine ⟨file, notes, hrun, hids.trans htake, ?_, hsize.trans (hcut.2 hsmall)⟩
          rw [← htake, hblocks]
          simp [hdelivered]
  · -- one header is not enough
    constructor
    · rintro ⟨notes, hrun⟩
      rw [h.run_loadFile] at hrun
      have hlong := le_of_add_le_left h.length_header
      rcases Nat.lt_or_ge (size / manager.blocksize) (2 ^ 31) with hsize | hrange
      · refine ⟨?_, hsize⟩
        by_contra hone
        obtain ⟨first, tail, rfl⟩ := List.exists_cons_of_ne_nil
          (List.ne_nil_of_length_pos ((Nat.zero_le _).trans_lt (hmany.trans_le henough)))
        obtain ⟨file, block, last, -, hload, -⟩ :=
          h.run_loadFile_one hblock hint (not_lt.mp hone) blockOffset
        rw [h.run_loadFile, hrun] at hload
        simp at hload
      · rw [run_loadHeader_range hlong hpos (by rwa [hheader])] at hrun
        simp at hrun
    · rintro ⟨hlarge, hsize⟩
      refine ⟨.clean, ?_⟩
      rw [h.run_loadFile]
      exact run_loadHeader_many (le_of_add_le_left h.length_header) hpos
        (by rwa [hheader]) hblock.le hint (by rwa [hheader]) _ _

/-- The id with one digit, over and over. -/
def digitId (digit : UInt8) : Bytes := List.replicate 64 digit

/-- The one entry of a manager names its one block. -/
theorem hasHeader_oneBlock {blocksize size : Nat} {sizeField : Bytes} {digits : List UInt8}
    (hfield : sizeField.length = 8 ∧ uintValue sizeField = size) (hdigits : 0 ∉ digits) :
    HasHeader (oneBlock blocksize (sizeField ++ List.replicate 64 0 ++
      (digits.map digitId).flatten ++ [])) [] size sizeField (List.replicate 64 0)
      (digits.map digitId) [] where
  entries := ⟨[], [], _, [], rfl, by decide, by simp, rfl⟩
  sizeField := hfield
  next := rfl
  whole := by
    intro hash hhash
    obtain ⟨digit, hdigit, rfl⟩ := List.mem_map.mp hhash
    refine ⟨List.length_replicate, fun hzero => ?_⟩
    rw [List.eq_of_mem_replicate hzero] at hdigits
    exact hdigits hdigit
  delivered := fun _ _ => rfl

/-- A file of three whole blocks with one id yields it three times. -/
theorem loaded_three_blocks :
    Yields (oneBlock 264 ([24, 3, 0, 0, 0, 0, 0, 0] ++ List.replicate 64 0 ++
      ([49, 49, 49].map digitId).flatten ++ [])) 0 [] 792 ([49, 49, 49].map digitId) := by
  refine (loaded_iff (hasHeader_oneBlock ⟨rfl, by decide⟩ (by decide)) (by decide) (by decide)
    (by decide) 0).2 ⟨fun _ => ⟨by decide, by decide, fun hash hhash => ?_⟩,
      fun hmany => absurd hmany (by decide)⟩
  obtain ⟨digit, hdigit, rfl⟩ := List.mem_map.mp (List.mem_of_mem_take hhash)
  rw [List.eq_of_mem_replicate (show digit ∈ List.replicate 3 49 from hdigit)]
  rfl

/-- A file of two whole blocks with different ids yields the first one twice. -/
theorem not_loaded_two_blocks :
    ¬ Yields (oneBlock 200 ([144, 1, 0, 0, 0, 0, 0, 0] ++ List.replicate 64 0 ++
      ([49, 50].map digitId).flatten ++ [])) 0 [] 400 ([49, 50].map digitId) := by
  rintro ⟨hfew, -⟩
  obtain ⟨loaded, after, hload, hids, -⟩ := hfew (by decide)
  have hheader : HasHeader (oneBlock 200 ([144, 1, 0, 0, 0, 0, 0, 0] ++ List.replicate 64 0 ++
      ([49, 50].map digitId).flatten ++ [])) [] 400 [144, 1, 0, 0, 0, 0, 0, 0]
      (List.replicate 64 0) ([49, 50].map digitId) [] :=
    hasHeader_oneBlock ⟨rfl, by decide⟩ (by decide)
  obtain ⟨file, block, notes, -, hrun, htwice, -⟩ :=
    hheader.run_loadFile_one (by decide) (by decide) (by decide) 0
  rw [hload, Result.ok.injEq] at hrun
  rw [hrun.1, htwice] at hids
  exact absurd hids (by decide)

end StorageManager

end AnarchNet
