import AnarchNet.StorageManager.Writing

/-!
# Streaming into and out of a mounted file

`operator>>` reads a stream word by word and `operator<<` writes the blocks of a file. The words of
a stream end up as one piece and a length that are given to `write`. `streamed_back_iff` says which
streams come out again as they went in.
-/

namespace AnarchNet

open FileSystem Native EStateM Json

namespace File

variable {blocksize : Nat} {file : File} {text : Bytes}

/-- The text has no blank. -/
def NoBlank (text : Bytes) : Prop := ∀ byte ∈ text, isSpace byte = false

instance (text : Bytes) : Decidable (NoBlank text) := inferInstanceAs (Decidable (∀ _ ∈ _, _))

/-- What `operator>>` does with a last string and length. -/
def lastWrite (blocksize : Nat) (piece : Bytes) (count : Int) (file : File) : Program File := do
  let file ←
    if 0 < count ∨ (blocksize : Int) ≤ count then file.write blocksize (piece ++ [0]) count
    else pure file
  file.resetOffset

/-- The rest of `operator>>`, from some point in its loop. -/
def reading (blocksize steps : Nat) (stream : IStream) (buff : Bytes) (tRead : Int) (file : File) :
    Program File := do
  let (buff, tRead, file) ← readLoop blocksize steps stream buff tRead file
  flush blocksize buff tRead file

/-- At the end of the stream the rest is written. -/
theorem reading_stopped {stream : IStream} (hgood : stream.good = false) (steps : Nat)
    (buff : Bytes) (tRead : Int) (file : File) :
    reading blocksize (steps + 1) stream buff tRead file = flush blocksize buff tRead file := by
  simp [reading, readLoop, hgood]

/-- A round of the loop. -/
theorem run_reading_round {stream after : IStream} {buff word : Bytes} (hgood : stream.good = true)
    (hextract : stream.extract buff = (after, word)) (hword : word.length < 2 ^ 31) (steps : Nat)
    (tRead : Int) (file : File) (notes : Notes) :
    (reading blocksize (steps + 1) stream buff tRead file).run notes =
      (if (blocksize : Int) ≤ tRead + word.length then do
        let file ← file.write blocksize (word ++ [0]) (tRead + word.length)
        reading blocksize steps after [] 0 file
      else reading blocksize steps after word (tRead + word.length) file).run notes := by
  have hint : (int (word.length : Int)).run notes = .ok (word.length : Int) notes :=
    run_int_of_fits ⟨by omega, by omega⟩ notes
  simp only [reading, readLoop, hgood, if_true, hextract, bind_assoc]
  rw [run_bind, hint]
  simp only
  split
  · rw [bind_assoc]
  · rfl

/-- The last round of the loop hands over the string. -/
theorem run_reading_last {stream after : IStream} {buff word : Bytes} (hgood : stream.good = true)
    (hextract : stream.extract buff = (after, word)) (hword : word.length < 2 ^ 31)
    (hafter : after.good = false) (steps : Nat) (tRead : Int) (file : File) (notes : Notes) :
    (reading blocksize (steps + 2) stream buff tRead file).run notes =
      (lastWrite blocksize word (tRead + word.length) file).run notes := by
  rw [run_reading_round hgood hextract hword]
  by_cases hfull : (blocksize : Int) ≤ tRead + word.length
  · simp only [if_pos hfull, reading_stopped hafter, lastWrite, flush, if_pos (Or.inr hfull),
      lt_irrefl, if_false, pure_bind]
  · simp only [hfull, if_false, reading_stopped hafter, lastWrite, flush, or_false]

/-- What is skipped and read of a stream is no longer there. -/
theorem length_words (rest : Bytes) :
    ((rest.dropWhile isSpace).takeWhile (! isSpace ·)).length +
      ((rest.dropWhile isSpace).dropWhile (! isSpace ·)).length ≤ rest.length := by
  rw [← List.length_append, List.takeWhile_append_dropWhile]
  exact (List.dropWhile_sublist _).length_le

/-- A word has no blank. -/
theorem noBlank_word (rest : Bytes) : NoBlank (rest.takeWhile (! isSpace ·)) := by
  intro byte hbyte
  simpa using List.mem_takeWhile_imp hbyte

/-- The word that is read from a stream with something other than blanks. -/
theorem extract_word {rest : Bytes} (hrest : rest.dropWhile isSpace ≠ []) (good : Bool)
    (buff : Bytes) : IStream.extract ⟨rest, good⟩ buff =
      (⟨(rest.dropWhile isSpace).dropWhile (! isSpace ·),
        (rest.dropWhile isSpace).dropWhile (! isSpace ·) ≠ []⟩,
        (rest.dropWhile isSpace).takeWhile (! isSpace ·)) := by
  simp [IStream.extract, hrest]

/-- The word that is read is not empty. -/
theorem word_ne_nil {rest : Bytes} (hrest : rest.dropWhile isSpace ≠ []) :
    (rest.dropWhile isSpace).takeWhile (! isSpace ·) ≠ [] := by
  have hhead := List.head_dropWhile_not isSpace hrest
  cases hcons : rest.dropWhile isSpace with
  | nil => exact absurd hcons hrest
  | cons byte tail =>
      simp only [hcons, List.head_cons] at hhead
      simp [hhead]

/-- A text without blanks is one word. -/
theorem NoBlank.split (h : NoBlank text) : text.dropWhile isSpace = text ∧
    text.takeWhile (! isSpace ·) = text ∧ text.dropWhile (! isSpace ·) = [] := by
  have hall : ∀ byte ∈ text, (! isSpace byte) = true := fun byte hbyte => by simp [h byte hbyte]
  refine ⟨?_, List.takeWhile_eq_self_iff.mpr hall, List.dropWhile_eq_nil_iff.mpr hall⟩
  cases text with
  | nil => rfl
  | cons byte tail => simp [h byte (by simp)]

/-- From a point of the loop with something left to read, a stream that fits a block ends in one
string without blanks and one length. The string is the rest of the stream if that has no blank. -/
theorem run_reading (hint : blocksize < 2 ^ 31) (steps : Nat) (rest buff : Bytes) (tRead : Nat)
    (hsteps : rest.length < steps) (hrest : rest ≠ []) (hfits : tRead + rest.length ≤ blocksize)
    (hbuff : buff.length ≤ tRead) (hblank : NoBlank buff) :
    ∃ (piece : Bytes) (count : Nat), NoBlank piece ∧
      (count ≤ blocksize ∨ piece.length + 1 < count) ∧
      (NoBlank rest → piece = rest ∧ count = tRead + rest.length) ∧ ∀ file notes,
        (reading blocksize (steps + 1) ⟨rest, true⟩ buff tRead file).run notes =
          (lastWrite blocksize piece count file).run notes := by
  induction steps generalizing rest buff tRead with
  | zero => omega
  | succ steps ih =>
      have hpos : 0 < rest.length := List.length_pos_of_ne_nil hrest
      by_cases hend : rest.dropWhile isSpace = []
      · -- only blanks are left: the string keeps its value and is counted once more
        have hextract : IStream.extract ⟨rest, true⟩ buff = (⟨[], false⟩, buff) := by
          simp [IStream.extract, hend]
        refine ⟨buff, tRead + buff.length, hblank, by omega, fun hnone => ?_, fun file notes => ?_⟩
        · exact absurd (hnone.split.1.symm.trans hend) hrest
        · rw [run_reading_last rfl hextract (by omega) rfl]
          norm_cast
      · have hlengths := length_words rest
        have hword : 0 < ((rest.dropWhile isSpace).takeWhile (! isSpace ·)).length :=
          List.length_pos_of_ne_nil (word_ne_nil hend)
        have hnoBlank := noBlank_word (rest.dropWhile isSpace)
        have hextract := extract_word hend true buff
        have hone : NoBlank rest → (rest.dropWhile isSpace).takeWhile (! isSpace ·) = rest ∧
            (rest.dropWhile isSpace).dropWhile (! isSpace ·) = [] := fun hnone => by
          rw [hnone.split.1]
          exact hnone.split.2
        generalize (rest.dropWhile isSpace).takeWhile (! isSpace ·) = word at *
        generalize (rest.dropWhile isSpace).dropWhile (! isSpace ·) = after at *
        by_cases hafter : after = []
        · -- the word ends with the stream
          refine ⟨word, tRead + word.length, hnoBlank, Or.inl (by omega), fun hnone => ?_,
            fun file notes => ?_⟩
          · rw [(hone hnone).1]
            exact ⟨rfl, rfl⟩
          · rw [run_reading_last rfl hextract (by omega) (by simp [hafter])]
            norm_cast
        · -- the loop goes on, and nothing was written yet
          have hpos' : 0 < after.length := List.length_pos_of_ne_nil hafter
          obtain ⟨piece, count, hpiece, hcount, -, hrun⟩ := ih after word (tRead + word.length)
            (by omega) hafter (by omega) (by omega) hnoBlank
          refine ⟨piece, count, hpiece, hcount, fun hnone => absurd (hone hnone).2 hafter,
            fun file notes => ?_⟩
          rw [run_reading_round rfl hextract (by omega), if_neg (by omega), ← hrun file notes]
          simp [hafter]

/-- What is streamed into a new file is streamed out of it, and no length that was given to `write`
was larger than its buffer. -/
def StreamsBack (blocksize : Nat) (blockOffset : Int) (text : Bytes) : Prop :=
  ∃ file notes last, (extract blocksize text (.new blockOffset)).run .clean = .ok file notes ∧
    notes.fits = true ∧ (insert file.dataBlocks).run notes = .ok text last

/-- A new file has no first block. -/
theorem run_resetOffset_new (blockOffset : Int) (notes : Notes) :
    (File.new blockOffset).resetOffset.run notes = .error .outside notes := rfl

/-- Bytes that fit a block are streamed out again. -/
theorem run_lastWrite (piece : Bytes) {count : Nat} (hwrite : 0 < count ∨ blocksize ≤ count)
    (hcount : count ≤ piece.length + 1) (hfits : count ≤ blocksize) (hint : blocksize < 2 ^ 31)
    (blockOffset : Int) (notes : Notes) :
    ∃ file, (lastWrite blocksize piece count (.new blockOffset)).run notes = .ok file notes ∧
      (insert file.dataBlocks).run notes = .ok ((piece ++ [0]).take count) notes := by
  have hrun : ((File.new blockOffset).write blocksize (piece ++ [0]) count).run notes = _ :=
    run_write_first rfl rfl (by simpa using hcount) hfits hint notes
  have hlength : ((piece ++ [0]).take count).length = count := by simpa using hcount
  have hcopy := run_copyOut_all ((piece ++ [0]).take count) notes
  rw [hlength] at hcopy
  rw [lastWrite, if_pos (by omega), run_bind, hrun]
  refine ⟨_, rfl, ?_⟩
  simp only [insert, run_bind, hcopy, run_pure, List.append_nil]

/-- Bytes that do not fit, or no write at all, lead outside. -/
theorem run_lastWrite_outside (piece : Bytes) {count : Nat} (hpos : 0 < blocksize)
    (hint : blocksize < 2 ^ 31)
    (hlong : count = 0 ∨ blocksize < count ∨ piece.length + 1 < count) (blockOffset : Int)
    (notes : Notes) : ∃ last,
      (lastWrite blocksize piece count (.new blockOffset)).run notes = .error .outside last := by
  rw [lastWrite]
  rcases hlong with rfl | hlong
  · refine ⟨notes, ?_⟩
    rw [if_neg (by omega), pure_bind]
    exact run_resetOffset_new blockOffset notes
  · rw [if_pos (by omega), run_bind]
    obtain ⟨last, hlast⟩ := run_write_outside (.new blockOffset) (piece ++ [0]) rfl rfl hpos hint
      (by simpa using hlong) notes
    exact ⟨last, by rw [hlast]⟩

/-- Streaming in begins in front of the loop. -/
theorem extract_eq_reading (blocksize : Nat) (text : Bytes) (file : File) :
    extract blocksize text file =
      reading blocksize (text.length + 2) ⟨text, true⟩ [] (0 : Nat) file := rfl

/-- An empty stream is given back only for blocks of no size. -/
theorem streamsBack_nil_iff (hint : blocksize < 2 ^ 31) (blockOffset : Int) :
    StreamsBack blocksize blockOffset [] ↔ blocksize = 0 := by
  have hrun : ∀ file notes, (extract blocksize [] file).run notes =
      (lastWrite blocksize [] (0 : Nat) file).run notes := fun file notes =>
    run_reading_last rfl rfl (by decide) rfl 0 0 file notes
  constructor
  · rintro ⟨file, notes, last, hextract, -⟩
    by_contra hpos
    obtain ⟨after, houtside⟩ := run_lastWrite_outside [] (Nat.pos_of_ne_zero hpos)
      hint (Or.inl rfl) blockOffset .clean
    rw [hrun, houtside] at hextract
    simp at hextract
  · rintro rfl
    obtain ⟨file, hwrite, hinsert⟩ := run_lastWrite [] (Or.inr le_rfl) (Nat.zero_le _)
      le_rfl hint blockOffset .clean
    exact ⟨file, .clean, .clean, by rw [hrun, hwrite], rfl, hinsert⟩

/-- A stream that is given back has no blank. -/
theorem StreamsBack.noBlank {blockOffset : Int} (h : StreamsBack blocksize blockOffset text)
    (hfits : text.length ≤ blocksize) (hint : blocksize < 2 ^ 31) : NoBlank text := by
  by_cases hnil : text = []
  · rw [hnil]
    exact fun byte hbyte => absurd hbyte List.not_mem_nil
  have hpos : 0 < blocksize := (List.length_pos_of_ne_nil hnil).trans_le hfits
  obtain ⟨piece, count, hpiece, -, -, hrun⟩ := run_reading hint (text.length + 1) text [] 0
    (by omega) hnil (by omega) le_rfl fun byte hbyte => absurd hbyte List.not_mem_nil
  obtain ⟨file, notes, last, hextract, -, hinsert⟩ := h
  rw [extract_eq_reading, hrun] at hextract
  by_cases hlong : count = 0 ∨ blocksize < count ∨ piece.length + 1 < count
  · obtain ⟨after, houtside⟩ := run_lastWrite_outside piece hpos hint hlong blockOffset .clean
    rw [houtside] at hextract
    simp at hextract
  · push Not at hlong
    obtain ⟨held, hwrite, hback⟩ := run_lastWrite piece (Or.inl (Nat.pos_of_ne_zero hlong.1))
      hlong.2.2 hlong.2.1 hint blockOffset .clean
    rw [hwrite, Result.ok.injEq] at hextract
    obtain ⟨rfl, rfl⟩ := hextract
    rw [hback, Result.ok.injEq] at hinsert
    rw [← hinsert.1]
    intro byte hbyte
    rcases List.mem_append.mp (List.mem_of_mem_take hbyte) with hword | hzero
    · exact hpiece byte hword
    · rw [List.mem_singleton.mp hzero]
      decide

/-- A stream that fits a block comes out as it went in exactly if it has bytes but no blank, or if
it is empty and blocks have no size. -/
theorem streamed_back_iff (blocksize : Nat) (blockOffset : Int) (text : Bytes)
    (hfits : text.length ≤ blocksize) (hint : blocksize < 2 ^ 31) :
    StreamsBack blocksize blockOffset text ↔ NoBlank text ∧ (text = [] → blocksize = 0) := by
  constructor
  · intro h
    refine ⟨h.noBlank hfits hint, ?_⟩
    rintro rfl
    exact (streamsBack_nil_iff hint blockOffset).1 h
  · rintro ⟨hblank, hempty⟩
    by_cases hnil : text = []
    · rw [hnil]
      exact (streamsBack_nil_iff hint blockOffset).2 (hempty hnil)
    obtain ⟨piece, count, -, -, hone, hrun⟩ := run_reading hint (text.length + 1) text [] 0
      (by omega) hnil (by omega) le_rfl fun byte hbyte => absurd hbyte List.not_mem_nil
    obtain ⟨rfl, rfl⟩ := hone hblank
    have hpos : 0 < piece.length := List.length_pos_of_ne_nil hnil
    obtain ⟨file, hwrite, hinsert⟩ := run_lastWrite piece (Or.inl (by omega))
      (show 0 + piece.length ≤ piece.length + 1 by omega) (by omega) hint blockOffset .clean
    refine ⟨file, .clean, .clean, ?_, rfl, ?_⟩
    · rw [extract_eq_reading, hrun]
      exact hwrite
    · rw [hinsert]
      simp

/-- A block of one word comes out again. -/
theorem streamed_back_word : StreamsBack 9 0 (ascii "anarchNet") :=
  (streamed_back_iff 9 0 (ascii "anarchNet") (by decide) (by decide)).2
    ⟨by decide +kernel, fun hempty => absurd hempty (by decide)⟩

/-- The text `a b` does not. -/
theorem not_streamed_back_blank : ¬ StreamsBack 4 0 [97, 32, 98] := fun h =>
  absurd (h.noBlank (by decide) (by decide)) (by decide)

end File

end AnarchNet
