import AnarchNet.StorageManager.Basic

/-!
# Writing to a mounted file

`file::write` is for cutting data into blocks. `written_iff` says for which data it does that on a
new file, and `rewritten_iff` for which sequences of data that fit a block the file keeps its size
in step with its blocks.
-/

namespace AnarchNet

open FileSystem Native EStateM

namespace File

variable {blocksize : Nat} {file : File} {text : Bytes}

/-- The first `count` bytes of a text as a new block. -/
theorem run_new {count : Nat} (hcount : count ≤ text.length) (hsize : count < 2 ^ 32)
    (notes : Notes) :
    (Block.new text 0 count).run notes = .ok ⟨text.take count, count⟩ notes := by
  have hcopy : (copyOut text (0 : Nat) count).run notes = _ := run_copyOut (by omega) notes
  rw [List.drop_zero, Nat.cast_zero] at hcopy
  simp only [Block.new, run_bind, run_uint_of_fits hsize, hcopy, run_pure]

/-- A first block is added to a file that is empty. -/
theorem run_addBlock {block : Block} (hblocks : file.dataBlocks = []) (hsize : file.size = 0)
    (hblock : block.size < 2 ^ 31) (notes : Notes) :
    (file.addBlock block).run notes = .ok { file with
      dataBlocks := [block], size := block.size, currentBlock := some 0, currentBlockId := 0 }
        notes := by
  have hint : (int (0 + (block.size : Int))).run notes = .ok (block.size : Int) notes := by
    rw [zero_add]
    exact run_int_of_fits ⟨by omega, by omega⟩ notes
  have hid : (int ((0 : Nat) : Int)).run notes = .ok 0 notes :=
    run_int_of_fits ⟨by omega, by omega⟩ notes
  simp only [addBlock, hblocks, hsize, run_bind, hint, List.length_nil, hid, List.nil_append,
    run_pure]

/-- Bytes that fit a block become the only block of a new file. -/
theorem run_write_first {count : Nat} (hblocks : file.dataBlocks = []) (hsize : file.size = 0)
    (hcount : count ≤ text.length) (hfits : count ≤ blocksize) (hint : blocksize < 2 ^ 31)
    (notes : Notes) :
    (file.write blocksize text count).run notes = .ok { file with
      dataBlocks := [⟨text.take count, count⟩], size := count, currentBlock := some 0,
      currentBlockId := 0 } notes := by
  have hnew := run_new hcount (by omega) notes
  have hadd : (file.addBlock ⟨text.take count, count⟩).run notes = _ :=
    run_addBlock hblocks hsize (lt_of_le_of_lt hfits hint) notes
  rw [write, run_bind, run_noteFits (by simpa using hcount)]
  simp only
  rw [if_pos (by omega), if_pos (by simp [hblocks]), run_bind, hnew]
  exact hadd

/-- Bytes behind the end of a text cannot become a block. -/
theorem run_new_outside {count : Nat} (hcount : text.length < count) (hsize : count < 2 ^ 32)
    (notes : Notes) : (Block.new text 0 count).run notes = .error .outside notes := by
  have hcopy : (copyOut text (0 : Nat) count).run notes = _ :=
    run_copyOut_outside (by omega) notes
  rw [Nat.cast_zero] at hcopy
  simp only [Block.new, run_bind, run_uint_of_fits hsize, hcopy]

/-- Copying to a block succeeds or reaches outside. -/
theorem run_copyTo_cases (offset : Int) (data : Bytes) (count : Int) (block : Block)
    (notes : Notes) : (∃ buffer, (copyTo offset data count block).run notes =
        .ok { block with data := buffer } notes) ∨
      (copyTo offset data count block).run notes = .error .outside notes := by
  simp only [copyTo, run_bind]
  rcases run_copyOut_cases data 0 count.toNat notes with ⟨bytes, hout⟩ | hout
  · rcases run_copyIn_cases block.data offset bytes notes with ⟨buffer, hin⟩ | hin
    · exact Or.inl ⟨buffer, by simp [hout, hin]⟩
    · exact Or.inr (by simp [hout, hin])
  · exact Or.inr (by simp [hout])

/-- Changing the current block of a file with one block. -/
theorem onCurrent_single {block : Block} (hblocks : file.dataBlocks = [block])
    (hcurrent : file.currentBlock = some 0) (change : Block → Program Block) :
    file.onCurrent change = do
      let block ← change block
      return { file with dataBlocks := [block] } := by
  simp only [onCurrent, hcurrent, hblocks, List.getElem?_cons_zero, List.set_cons_zero]

/-- A file with one block has no next one. -/
theorem run_nextBlock_single {block : Block} (hblocks : file.dataBlocks = [block])
    (hid : file.currentBlockId = 0) (notes : Notes) :
    file.nextBlock.run notes = .error .outside notes := by
  have hint : (int (0 + 1)).run notes = .ok 1 notes := run_int_of_fits ⟨by decide, by decide⟩ notes
  simp only [nextBlock, hid, run_bind, hint, hblocks, List.length_singleton]
  rw [if_neg (by omega)]
  rfl

/-- Recording a size in the only block and going on to the next one. -/
theorem run_resize_next {block : Block} (size : Int) (hblocks : file.dataBlocks = [block])
    (hcurrent : file.currentBlock = some 0) (hid : file.currentBlockId = 0) (notes : Notes) :
    ∃ last, (file.onCurrent (resize size) >>= nextBlock).run notes = .error .outside last := by
  rw [onCurrent_single hblocks hcurrent]
  simp only [resize, uint, noteExact, run_bind, run_pure, run_modify]
  exact ⟨_, run_nextBlock_single (by rfl) (by exact hid) _⟩

/-- A later round asks for a block that a file with one block does not have. -/
theorem run_fillCurrent_single (file : File) {block : Block} (data : Bytes) (rsize : Int)
    (hblocks : file.dataBlocks = [block]) (hcurrent : file.currentBlock = some 0)
    (hid : file.currentBlockId = 0) (notes : Notes) :
    ∃ last, (fillCurrent data rsize file).run notes = .error .outside last := by
  rw [fillCurrent]
  by_cases hoffset : 0 < file.blockOffset
  · -- nothing is copied to the middle of a block
    simp only [if_pos hoffset, pure_bind]
    exact run_resize_next rsize hblocks hcurrent hid notes
  · simp only [if_neg hoffset, onCurrent_single hblocks hcurrent, bind_assoc,
      run_bind (copyTo _ _ _ _),
      pure_bind]
    rcases run_copyTo_cases file.blockOffset data rsize block notes with ⟨buffer, hcopy⟩ | hcopy
    · simp only [hcopy]
      apply run_resize_next
      · rfl
      · exact hcurrent
      · exact hid
    · exact ⟨notes, by simp only [hcopy]⟩

/-- The first round of the loop on a file without blocks. -/
theorem writeLoop_first {data : Bytes} {steps : Nat} {size rsize i count : Int}
    (hblocks : file.dataBlocks = []) (hsize : 0 < size)
    (hcount : (if size < blocksize then size else rsize) = count) :
    writeLoop blocksize data (steps + 1) size rsize i file = (do
      let block ← Block.new data i count
      let file ← file.addBlock block
      let i ← int (i + count)
      writeLoop blocksize data steps (size - count) count i file) := by
  subst hcount
  rw [writeLoop, if_pos hsize]
  simp only [hblocks, List.isEmpty_nil, if_true]

/-- A round of the loop on a file with blocks. -/
theorem writeLoop_next {data : Bytes} {steps : Nat} {size rsize i count : Int} {block : Block}
    {rest : List Block} (hblocks : file.dataBlocks = block :: rest) (hsize : 0 < size)
    (hcount : (if size < blocksize then size else rsize) = count) :
    writeLoop blocksize data (steps + 1) size rsize i file = (do
      let file ← fillCurrent data count file
      let i ← int (i + count)
      writeLoop blocksize data steps (size - count) count i file) := by
  subst hcount
  rw [writeLoop, if_pos hsize]
  simp only [hblocks, List.isEmpty_cons, Bool.false_eq_true, if_false]

/-- Bytes that do not fit a block, or reach behind the end of a text, lead outside when they are
written to a new file. -/
theorem run_write_outside (file : File) (text : Bytes) {count : Nat}
    (hblocks : file.dataBlocks = [])
    (hsize : file.size = 0) (hpos : 0 < blocksize) (hint : blocksize < 2 ^ 31)
    (hlong : blocksize < count ∨ text.length < count) (notes : Notes) :
    ∃ last, (file.write blocksize text count).run notes = .error .outside last := by
  have hnote : (noteFits ((count : Int) ≤ text.length)).run notes =
      .ok () { notes with fits := notes.fits && decide ((count : Int) ≤ text.length) } := rfl
  generalize ({ notes with fits := notes.fits && decide ((count : Int) ≤ text.length) } : Notes) =
    noted at hnote
  rw [write, run_bind, hnote]
  simp only
  rcases Nat.lt_or_ge blocksize count with hlarge | hsmall
  · obtain ⟨steps, rfl⟩ : ∃ steps, count = steps + 2 := ⟨count - 2, by omega⟩
    rw [if_neg (by omega), hblocks, List.length_nil, Int.toNat_natCast, add_zero,
      writeLoop_first hblocks (by omega) (if_neg (by omega)), run_bind]
    rcases Nat.lt_or_ge text.length blocksize with hshort | hfirst
    · exact ⟨noted, by rw [run_new_outside hshort (by omega)]⟩
    · have hadd : (file.addBlock ⟨text.take blocksize, blocksize⟩).run noted = _ :=
        run_addBlock hblocks hsize hint noted
      have hposition : (int (0 + (blocksize : Int))).run noted = .ok (blocksize : Int) noted := by
        rw [zero_add]
        exact run_int_of_fits ⟨by omega, by omega⟩ noted
      rw [run_new hfirst (by omega)]
      simp only [run_bind, hadd, hposition]
      -- the second round finds no block to go on to
      rw [writeLoop_next rfl (by omega) rfl, run_bind]
      obtain ⟨last, hlast⟩ := run_fillCurrent_single { file with
        dataBlocks := [⟨text.take blocksize, blocksize⟩], size := blocksize,
        currentBlock := some 0, currentBlockId := 0 } text _ rfl rfl rfl noted
      exact ⟨last, by rw [hlast]⟩
  · have hshort : text.length < count := by omega
    refine ⟨noted, ?_⟩
    rw [if_pos (by omega), if_pos (by simp [hblocks]), run_bind, run_new_outside hshort (by omega)]

/-- Writing a text to a new file cuts it into blocks of at most the block size: no access leads
outside, the blocks hold the text, and the file has its size. -/
def Written (blocksize : Nat) (blockOffset : Int) (text : Bytes) : Prop :=
  ∃ file notes, ((File.new blockOffset).write blocksize text text.length).run .clean =
      .ok file notes ∧
    file.contents = text ∧ file.size = text.length ∧
    ∀ block ∈ file.dataBlocks, block.data.length = block.size ∧ block.size ≤ blocksize

/-- A text that is cut into blocks fits one. -/
theorem Written.length_le {blockOffset : Int} (h : Written blocksize blockOffset text)
    (hpos : 1 ≤ blocksize) (hint : blocksize < 2 ^ 31) : text.length ≤ blocksize := by
  obtain ⟨file, notes, hrun, -⟩ := h
  by_contra hlong
  obtain ⟨last, houtside⟩ := run_write_outside (.new blockOffset) text rfl rfl hpos hint
    (Or.inl (not_le.mp hlong)) .clean
  rw [houtside] at hrun
  simp at hrun

/-- A text is cut into blocks exactly if it fits one. -/
theorem written_iff (blocksize : Nat) (blockOffset : Int) (text : Bytes) (hpos : 1 ≤ blocksize)
    (hint : blocksize < 2 ^ 31) :
    Written blocksize blockOffset text ↔ text.length ≤ blocksize := by
  refine ⟨fun h => h.length_le hpos hint, fun hfits => ?_⟩
  exact ⟨_, _, run_write_first rfl rfl le_rfl hfits hint .clean, by simp [contents, Block.bytes],
    rfl, by simpa using hfits⟩

/-- The letter `a` is written to a file with blocks of one byte. -/
theorem written_letter : Written 1 0 [97] :=
  (written_iff 1 0 [97] (by decide) (by decide)).2 (by decide)

/-- The letters `ab` are not. -/
theorem not_written_letters : ¬ Written 1 0 [97, 98] :=
  fun h => absurd (h.length_le (by decide) (by decide)) (by decide)

/-! ## Writing again -/

/-- A call of `write` with a whole text, followed by `reset_offset`. -/
def rewrite (blocksize : Nat) (file : File) (text : Bytes) : Program File := do
  let file ← file.write blocksize text text.length
  file.resetOffset

/-- A file with one block, the buffer of which has some room and begins with a text. -/
structure Holds (room : Nat) (text : Bytes) (file : File) : Prop where
  blocks : ∃ buffer, file.dataBlocks = [⟨text ++ buffer, text.length⟩] ∧
    text.length + buffer.length = room
  current : file.currentBlock = some 0
  size : file.size = room

/-- A first text is held without room to spare. -/
theorem run_rewrite_first (file : File) (text : Bytes) (hblocks : file.dataBlocks = [])
    (hsize : file.size = 0) (hfits : text.length ≤ blocksize) (hint : blocksize < 2 ^ 31)
    (notes : Notes) :
    ∃ after, (rewrite blocksize file text).run notes = .ok after notes ∧
      Holds text.length text after := by
  simp only [rewrite, run_bind, run_write_first hblocks hsize le_rfl hfits hint]
  exact ⟨_, rfl, ⟨[], by simp, by simp⟩, rfl, rfl⟩

/-- A text is copied over the beginning of a block that has room for it. -/
theorem run_copyTo {block : Block} (h : text.length ≤ block.data.length) (notes : Notes) :
    (copyTo 0 text text.length block).run notes =
      .ok { block with data := text ++ block.data.drop text.length } notes := by
  simp only [copyTo, run_bind, Int.toNat_natCast, run_copyOut_all, run_copyIn h, run_pure]

/-- A text is not copied to a block that has no room for it. -/
theorem run_copyTo_outside {block : Block} (h : block.data.length < text.length) (notes : Notes) :
    (copyTo 0 text text.length block).run notes = .error .outside notes := by
  simp only [copyTo, run_bind, Int.toNat_natCast, run_copyOut_all, run_copyIn_outside h]

/-- Writing a text that fits a block to a file with one block changes that block. -/
theorem run_write_again {block : Block} (hblocks : file.dataBlocks = [block])
    (hcurrent : file.currentBlock = some 0) (hfits : text.length ≤ blocksize) (notes : Notes) :
    (file.write blocksize text text.length).run notes = (do
      let block ← copyTo 0 text text.length block
      let block ← resize text.length block
      return { file with dataBlocks := [block] } : Program File).run notes := by
  rw [write, run_bind, run_noteFits (by simp)]
  simp only
  rw [if_pos (by omega), if_neg (by simp [hblocks]), onCurrent_single hblocks hcurrent]
  simp only [bind_assoc, pure_bind]
  rw [run_bind, run_bind]
  cases (copyTo 0 text text.length block).run notes with
  | error stop last => rfl
  | ok after last =>
      simp only [onCurrent_single (show ({ file with dataBlocks := [after] } : File).dataBlocks =
        [after] from rfl) hcurrent]

section Rewrite

variable {room : Nat} {old : Bytes} (h : Holds room old file) (hfits : text.length ≤ blocksize)

include h hfits

/-- A text for which there is room replaces the one that was held. -/
theorem Holds.run_rewrite (hint : blocksize < 2 ^ 31) (hroom : text.length ≤ room) (notes : Notes) :
    ∃ after, (rewrite blocksize file text).run notes = .ok after notes ∧ Holds room text after := by
  obtain ⟨buffer, hblocks, hlength⟩ := h.blocks
  have hcopy : (copyTo 0 text text.length ⟨old ++ buffer, old.length⟩).run notes = _ :=
    run_copyTo (by simpa [hlength] using hroom) notes
  have hsize := run_uint_of_fits (show text.length < 2 ^ 32 by omega) notes
  simp only [rewrite, run_bind, run_write_again hblocks h.current hfits, hcopy, resize, hsize,
    run_pure]
  refine ⟨_, rfl, ⟨(old ++ buffer).drop text.length, rfl, ?_⟩, rfl, h.size⟩
  rw [List.length_drop, List.length_append]
  omega

/-- A text for which there is no room leads outside of the buffer. -/
theorem Holds.run_rewrite_outside (hroom : room < text.length) (notes : Notes) :
    (rewrite blocksize file text).run notes = .error .outside notes := by
  obtain ⟨buffer, hblocks, hlength⟩ := h.blocks
  have hcopy : (copyTo 0 text text.length ⟨old ++ buffer, old.length⟩).run notes = _ :=
    run_copyTo_outside (by simpa [hlength] using hroom) notes
  simp only [rewrite, run_bind, run_write_again hblocks h.current hfits, hcopy]

end Rewrite

/-- A run of such calls. -/
def writes (blocksize : Nat) (texts : List Bytes) (file : File) : Program File :=
  texts.foldlM (rewrite blocksize) file

/-- After every call of a run, the size of the file is that of its blocks, the blocks hold the text
of that call, and no call led outside of a buffer. -/
def KeepsStep (blocksize : Nat) (blockOffset : Int) (texts : List Bytes) : Prop :=
  ∀ front text, front ++ [text] <+: texts → ∃ file notes,
    (writes blocksize (front ++ [text]) (.new blockOffset)).run .clean = .ok file notes ∧
      file.size = ((file.dataBlocks.map Block.size).sum : Nat) ∧ file.contents = text

/-- The last call of a run comes after the others. -/
theorem run_writes_snoc (front : List Bytes) (text : Bytes) (file : File) (notes : Notes) :
    (writes blocksize (front ++ [text]) file).run notes =
      (writes blocksize front file >>= fun file => rewrite blocksize file text).run notes := by
  simp only [writes, List.foldlM_append, List.foldlM_cons, List.foldlM_nil, bind_pure]

/-- A run of texts of one length leaves a file that holds the last text and has no room to spare. -/
theorem run_writes {room : Nat} (hroom : room ≤ blocksize) (hint : blocksize < 2 ^ 31)
    (blockOffset : Int) (front : List Bytes) (text : Bytes)
    (hlengths : ∀ other ∈ front ++ [text], other.length = room) :
    ∃ file, (writes blocksize (front ++ [text]) (.new blockOffset)).run .clean = .ok file .clean ∧
      Holds room text file := by
  induction front using List.reverseRecOn generalizing text with
  | nil =>
      have htext : text.length = room := hlengths text (by simp)
      obtain ⟨file, hrun, hholds⟩ := run_rewrite_first (.new blockOffset) text rfl rfl
        (htext ▸ hroom) hint .clean
      refine ⟨file, ?_, htext ▸ hholds⟩
      rw [run_writes_snoc, run_bind]
      exact hrun
  | append_singleton front last ih =>
      obtain ⟨file, hrun, hholds⟩ := ih last fun other hother =>
        hlengths other (List.mem_append_left _ hother)
      have htext : text.length = room := hlengths text (by simp)
      obtain ⟨after, hafter, hlast⟩ := hholds.run_rewrite (htext ▸ hroom) hint htext.le .clean
      refine ⟨after, ?_, hlast⟩
      rw [run_writes_snoc, run_bind, hrun]
      exact hafter

/-- A file that keeps step with its blocks holds a text that fills its room. -/
theorem Holds.length_eq {room : Nat} (h : Holds room text file)
    (hstep : file.size = ((file.dataBlocks.map Block.size).sum : Nat)) : text.length = room := by
  obtain ⟨buffer, hblocks, -⟩ := h.blocks
  rw [h.size, hblocks] at hstep
  simpa using hstep.symm

/-- The block of such a file holds its text. -/
theorem Holds.contents_eq {room : Nat} (h : Holds room text file) : file.contents = text := by
  obtain ⟨buffer, hblocks, -⟩ := h.blocks
  simp [contents, hblocks, Block.bytes]

/-- The texts of a run that keeps step have the length of the first one. -/
theorem length_eq_of_keepsStep {blockOffset : Int} {first : Bytes} {rest : List Bytes}
    (hint : blocksize < 2 ^ 31) (hfits : ∀ text ∈ first :: rest, text.length ≤ blocksize)
    (h : KeepsStep blocksize blockOffset (first :: rest)) :
    ∀ text ∈ rest, text.length = first.length := by
  induction rest using List.reverseRecOn with
  | nil => simp
  | append_singleton rest last ih =>
      have hmore : first :: rest <+: first :: (rest ++ [last]) := ⟨[last], rfl⟩
      have hbefore := ih (fun text htext => hfits text (hmore.subset htext))
        fun front text hfront => h front text (hfront.trans hmore)
      obtain ⟨front, text, hsplit⟩ : ∃ front text, first :: rest = front ++ [text] :=
        ⟨_, _, (List.dropLast_append_getLast (List.cons_ne_nil first rest)).symm⟩
      obtain ⟨file, hrun, hholds⟩ := run_writes (hfits first (by simp)) hint blockOffset front text
        fun other hother => by
          rw [← hsplit, List.mem_cons] at hother
          rcases hother with rfl | hother
          · rfl
          · exact hbefore other hother
      obtain ⟨after, notes, hafter, hstep, -⟩ := h (front ++ [text]) last (by rw [← hsplit]; simp)
      rw [run_writes_snoc, run_bind, hrun] at hafter
      simp only at hafter
      have hlast : last.length ≤ blocksize := hfits last (by simp)
      rcases Nat.lt_or_ge first.length last.length with hlong | hshort
      · rw [hholds.run_rewrite_outside hlast hlong] at hafter
        simp at hafter
      · obtain ⟨held, hheld, hholdsLast⟩ := hholds.run_rewrite hlast hint hshort .clean
        rw [hheld, Result.ok.injEq] at hafter
        rw [← hafter.1] at hstep
        intro other hother
        rcases List.mem_append.mp hother with hother | hother
        · exact hbefore other hother
        · rw [List.mem_singleton.mp hother]
          exact hholdsLast.length_eq hstep

/-- In a run of texts that fit a block, the size of a file stays in step with its blocks exactly if
all texts have the same length. -/
theorem rewritten_iff (blocksize : Nat) (blockOffset : Int) (texts : List Bytes)
    (hint : blocksize < 2 ^ 31) (hfits : ∀ text ∈ texts, text.length ≤ blocksize) :
    KeepsStep blocksize blockOffset texts ↔
      ∀ left ∈ texts, ∀ right ∈ texts, left.length = right.length := by
  constructor
  · intro h
    cases texts with
    | nil => simp
    | cons first rest =>
        have hall : ∀ text ∈ first :: rest, text.length = first.length := by
          intro text htext
          rcases List.mem_cons.mp htext with rfl | htext
          · rfl
          · exact length_eq_of_keepsStep hint hfits h text htext
        exact fun left hleft right hright => (hall left hleft).trans (hall right hright).symm
  · intro h front text hfront
    have htext : text ∈ texts := hfront.subset (by simp)
    obtain ⟨file, hrun, hholds⟩ := run_writes (hfits text htext) hint blockOffset front text
      fun other hother => h other (hfront.subset hother) text htext
    refine ⟨file, .clean, hrun, ?_, hholds.contents_eq⟩
    obtain ⟨buffer, hblocks, -⟩ := hholds.blocks
    rw [hholds.size, hblocks]
    simp

/-- Two letters are written one after the other. -/
theorem rewritten_letters : KeepsStep 4 0 [[97], [98]] :=
  (rewritten_iff 4 0 [[97], [98]] (by decide) (by decide)).2 (by decide)

/-- A letter after two letters does not keep step. -/
theorem not_rewritten_shorter : ¬ KeepsStep 4 0 [[97, 98], [99]] := by
  intro h
  have hlength := length_eq_of_keepsStep (by decide) (by decide) h [99] (by simp)
  simp at hlength

end File

end AnarchNet
