import Cse420.Lister.Search

/-!
How a file is cut by `fgets` and then by `strtok_r`. A line that `fgets` reads
with its newline is cut into the words it has in the file. A line of exactly as
many bytes as the buffer takes is read without its newline, which then comes
alone and holds no word.
-/

namespace Cse420.Lister

open CMemory

def newline : UInt8 := '\n'.toUInt8

/-- The lines of a file, the last one being what follows the last newline. -/
def lines (file : List UInt8) : List (List UInt8) := file.splitOnP (· = newline)

section Fgets

variable {n : Nat} {line rest : List UInt8}

/-- A line with room for its newline is read whole. -/
theorem fgets_line (hline : newline ∉ line) (hn : line.length < n) :
    fgets n (line ++ newline :: rest) = (line ++ [newline], rest) := by
  induction line generalizing n with
  | nil =>
      obtain ⟨n, rfl⟩ : ∃ m, n = m + 1 := ⟨n - 1, by simp at hn; omega⟩
      simp [fgets, newline]
  | cons c line ih =>
      obtain ⟨n, rfl⟩ : ∃ m, n = m + 1 := ⟨n - 1, by simp at hn; omega⟩
      have hc : c ≠ '\n'.toUInt8 := fun h => hline (by simp [newline, h])
      have hrest := ih (fun h => hline (by simp [h])) (by simp at hn; omega)
      simp [fgets, hc, hrest]

/-- Without a newline as many bytes are read as there is room for, or all. -/
theorem fgets_take {file : List UInt8} (hfile : newline ∉ file.take n) :
    fgets n file = (file.take n, file.drop n) := by
  induction n generalizing file with
  | zero => simp [fgets]
  | succ n ih =>
      cases file with
      | nil => rfl
      | cons c file =>
          rw [List.take_succ_cons] at hfile
          have hc : c ≠ '\n'.toUInt8 := fun h => hfile (by simp [newline, h])
          have hrest := ih fun h => hfile (List.mem_cons_of_mem c h)
          simp [fgets, hc, hrest]

/-- A read that brings no newline ends before the line does. -/
theorem le_length_of_take (h : newline ∉ (line ++ newline :: rest).take n) :
    n ≤ line.length := by
  by_contra hshort
  apply h
  obtain ⟨m, hm⟩ : ∃ m, n - line.length = m + 1 := ⟨n - line.length - 1, by omega⟩
  rw [List.take_append, hm, List.take_succ_cons]
  exact List.mem_append_right _ List.mem_cons_self

/-- What is read and what is left make up the file. -/
theorem fgets_append (n : Nat) (file : List UInt8) :
    (fgets n file).1 ++ (fgets n file).2 = file := by
  induction n generalizing file with
  | zero => simp [fgets]
  | succ n ih =>
      cases file with
      | nil => simp [fgets]
      | cons c file =>
          unfold fgets
          split
          · rfl
          · simp [ih]

theorem fgets_le (n : Nat) (file : List UInt8) : (fgets n file).1.length ≤ n := by
  induction n generalizing file with
  | zero => simp [fgets]
  | succ n ih =>
      cases file with
      | nil => simp [fgets]
      | cons c file =>
          have hrest := ih file
          unfold fgets
          split
          · simp
          · simpa using hrest

/-- A read that finds something takes at least one byte. -/
theorem fgets_length {file : List UInt8} (hne : file ≠ []) :
    (fgets (n + 1) file).2.length < file.length := by
  obtain ⟨c, file, rfl⟩ := List.exists_cons_of_ne_nil hne
  have hsum := congrArg List.length (fgets_append n file)
  rw [List.length_append] at hsum
  unfold fgets
  split
  · simp
  · simp only [List.length_cons]
    omega

end Fgets

section Strtok

theorem newline_delim : newline ∈ delim := by decide

/-- A delimiter ends the words on its left and begins those on its right. -/
theorem strtokAll_append {d : UInt8} (hd : d ∈ delim) (str rest : List UInt8) :
    strtokAll (str ++ d :: rest) = strtokAll str ++ strtokAll rest := by
  rw [strtokAll, List.splitOnP_append_cons _ _ (by simpa using hd), List.filter_append]
  rfl

theorem strtokAll_nil : strtokAll [] = [] := rfl

theorem mem_splitOnP {α : Type} {p : α → Bool} {xs part : List α} (h : part ∈ xs.splitOnP p) :
    (∀ c ∈ part, p c = false) ∧ ∀ c ∈ part, c ∈ xs := by
  induction xs generalizing part with
  | nil =>
      rw [List.splitOnP_nil, List.mem_singleton] at h
      simp [h]
  | cons x xs ih =>
      rw [List.splitOnP_cons_eq_if_modifyHead] at h
      split at h
      · rcases List.mem_cons.mp h with rfl | h
        · simp
        · have hpart := ih h
          exact ⟨hpart.1, fun c hc => List.mem_cons_of_mem x (hpart.2 c hc)⟩
      · rename_i hx
        obtain ⟨head, tail, hsplit⟩ := List.exists_cons_of_ne_nil (List.splitOnP_ne_nil p xs)
        rw [hsplit, List.modifyHead_cons] at h
        rw [hsplit] at ih
        rcases List.mem_cons.mp h with rfl | h
        · have hhead : (∀ c ∈ head, p c = false) ∧ ∀ c ∈ head, c ∈ xs := ih (by simp)
          constructor
          · intro c hc
            rcases List.mem_cons.mp hc with rfl | hc
            · simpa using hx
            · exact hhead.1 c hc
          · intro c hc
            rcases List.mem_cons.mp hc with rfl | hc
            · simp
            · exact List.mem_cons_of_mem x (hhead.2 c hc)
        · have hpart : (∀ c ∈ part, p c = false) ∧ ∀ c ∈ part, c ∈ xs := ih (by simp [h])
          exact ⟨hpart.1, fun c hc => List.mem_cons_of_mem x (hpart.2 c hc)⟩

/-- The words are runs of bytes that are not delimiters. -/
theorem mem_strtokAll {word str : List UInt8} (h : word ∈ strtokAll str) :
    word ≠ [] ∧ (∀ c ∈ word, c ∉ delim) ∧ ∀ c ∈ word, c ∈ str := by
  obtain ⟨hsplit, hne⟩ := List.mem_filter.mp h
  have hpart := mem_splitOnP hsplit
  refine ⟨by simpa using hne, ?_, hpart.2⟩
  intro c hc
  simpa using hpart.1 c hc

/-- A keyword that is no word of any string. -/
theorem not_mem_strtokAll {keyword : List UInt8} (h : keyword = [] ∨ ∃ c ∈ keyword, c ∈ delim)
    (str : List UInt8) : keyword ∉ strtokAll str := by
  intro hmem
  obtain ⟨hne, hdelim, -⟩ := mem_strtokAll hmem
  rcases h with h | ⟨c, hc, hd⟩
  · exact hne h
  · exact hdelim c hc hd

/-- `rws` has nothing to remove from a word. -/
theorem rws_of_no_space {word : List UInt8} (h : ' '.toUInt8 ∉ word) : rws word = word := by
  induction word with
  | nil => rfl
  | cons c word ih =>
      have hc : c ≠ ' '.toUInt8 := fun heq => h (by simp [heq])
      have hrest := ih fun hmem => h (by simp [hmem])
      simp [rws, hc, hrest]

end Strtok

section Buffers

variable {file : List UInt8}

theorem lines_cons {line rest : List UInt8} (hline : newline ∉ line) :
    lines (line ++ newline :: rest) = line :: lines rest := by
  apply List.splitOnP_append_cons_of_forall_mem
  · intro c hc
    simp only [decide_eq_false_iff_not]
    rintro rfl
    exact hline hc
  · simp

theorem lines_last (hfile : newline ∉ file) : lines file = [file] := by
  apply List.splitOnP_eq_singleton
  intro c hc
  simp only [decide_eq_false_iff_not]
  rintro rfl
  exact hfile hc

/-- A file is its last line, or a line with its newline and a file behind it. -/
theorem file_induction {P : List UInt8 → Prop} (last : ∀ file, newline ∉ file → P file)
    (cons : ∀ line rest, newline ∉ line → P rest → P (line ++ newline :: rest))
    (file : List UInt8) : P file := by
  induction hlength : file.length using Nat.strong_induction_on generalizing file with
  | _ n ih =>
      by_cases hfile : newline ∈ file
      · obtain ⟨line, rest, rfl, hline⟩ := List.eq_append_cons_of_mem hfile
        simp only [List.length_append, List.length_cons] at hlength
        exact cons line rest hline (ih rest.length (by omega) rest rfl)
      · exact last file hfile

/-- No word goes over the end of a line. -/
theorem strtokAll_lines (file : List UInt8) :
    strtokAll file = (lines file).flatMap strtokAll := by
  induction file using file_induction with
  | last file hfile => simp [lines_last hfile]
  | cons line rest hline ih =>
      rw [strtokAll_append newline_delim, lines_cons hline, List.flatMap_cons, ih]

/-- One turn of the `fgets` loop, in a file without zero bytes. -/
theorem buffers_step (fuel : Nat) (hzero : 0 ∉ file) (hne : file ≠ []) :
    buffers (fuel + 1) file = (fgets 1023 file).1 :: buffers fuel (fgets 1023 file).2 := by
  obtain ⟨c, rest, rfl⟩ := List.exists_cons_of_ne_nil hne
  have hread : (fgets 1023 (c :: rest)).1.takeWhile (· ≠ 0) = (fgets 1023 (c :: rest)).1 := by
    apply List.takeWhile_eq_self_iff.mpr
    intro b hb
    have hmem : b ∈ c :: rest := by
      rw [← fgets_append 1023 (c :: rest)]
      exact List.mem_append_left _ hb
    simp only [decide_eq_true_eq]
    rintro rfl
    exact hzero hmem
  rw [buffers, hread]
  simp

theorem buffers_nil (fuel : Nat) : buffers fuel [] = [] := by
  cases fuel <;> rfl

theorem buffers_le {fuel : Nat} {piece : List UInt8} (h : piece ∈ buffers fuel file) :
    piece.length ≤ 1023 := by
  induction fuel generalizing file with
  | zero => simp [buffers] at h
  | succ fuel ih =>
      cases file with
      | nil => simp [buffers] at h
      | cons c file =>
          rw [buffers] at h
          rcases List.mem_cons.mp h with rfl | h
          · exact (List.takeWhile_sublist _).length_le.trans (fgets_le 1023 (c :: file))
          · exact ih h
          · simp

/-- A buffer is a string. -/
theorem buffers_zero {fuel : Nat} {piece : List UInt8} (h : piece ∈ buffers fuel file) :
    0 ∉ piece := by
  induction fuel generalizing file with
  | zero => simp [buffers] at h
  | succ fuel ih =>
      cases file with
      | nil => simp [buffers] at h
      | cons c file =>
          rw [buffers] at h
          rcases List.mem_cons.mp h with rfl | h
          · intro hmem
            simpa using List.mem_takeWhile_imp hmem
          · exact ih h
          · simp

/-- More turns than the file has bytes change nothing. -/
theorem buffers_fuel (hzero : 0 ∉ file) {fuel : Nat} (hfuel : file.length ≤ fuel) :
    buffers fuel file = buffers file.length file := by
  induction hlength : file.length using Nat.strong_induction_on generalizing file fuel with
  | _ n ih =>
      by_cases hne : file = []
      · subst hne
        rw [buffers_nil, buffers_nil]
      · have hless : (fgets 1023 file).2.length < file.length := fgets_length hne
        have hpos := List.length_pos_of_ne_nil hne
        obtain ⟨fuel, rfl⟩ : ∃ m, fuel = m + 1 := ⟨fuel - 1, by omega⟩
        obtain ⟨m, rfl⟩ : ∃ m, n = m + 1 := ⟨n - 1, by omega⟩
        have hrest : 0 ∉ (fgets 1023 file).2 := by
          intro h
          apply hzero
          rw [← fgets_append 1023 file]
          exact List.mem_append_right _ h
        have hsame (k : Nat) (hk : m ≤ k) : buffers k (fgets 1023 file).2 =
            buffers (fgets 1023 file).2.length (fgets 1023 file).2 :=
          ih _ (by omega) hrest (by omega) rfl
        rw [buffers_step fuel hzero hne, buffers_step m hzero hne, hsame fuel (by omega),
          hsame m (Nat.le_refl m)]

/-- With lines that fit, the words of the buffers are the words of the file. -/
theorem strtokAll_buffers (fuel : Nat) (hzero : 0 ∉ file)
    (hlines : ∀ line ∈ lines file, line.length ≤ 1023) (hfuel : file.length ≤ fuel) :
    (buffers fuel file).flatMap strtokAll = strtokAll file := by
  induction fuel generalizing file with
  | zero =>
      obtain rfl : file = [] := List.eq_nil_of_length_eq_zero (by omega)
      rfl
  | succ fuel ih =>
      by_cases hne : file = []
      · rw [hne]
        rfl
      rw [buffers_step fuel hzero hne, List.flatMap_cons]
      by_cases hnewline : newline ∈ file
      · obtain ⟨line, rest, rfl, hline⟩ := List.eq_append_cons_of_mem hnewline
        rw [lines_cons hline] at hlines
        have hfirst := hlines line (by simp)
        have hzerorest : 0 ∉ rest := fun h => hzero (by simp [h])
        have hrest : ∀ l ∈ lines rest, l.length ≤ 1023 := fun l hl => hlines l (by simp [hl])
        simp only [List.length_append, List.length_cons] at hfuel
        rw [strtokAll_append newline_delim]
        by_cases hfits : line.length < 1023
        · rw [fgets_line hline hfits]
          have hword := strtokAll_append newline_delim line []
          rw [ih hzerorest hrest (by omega), hword, strtokAll_nil, List.append_nil]
        · -- the newline is left for the next read
          have hfull : line.length = 1023 := by omega
          have htake : (line ++ newline :: rest).take 1023 = line := by
            rw [← hfull, List.take_left]
          have hdrop : (line ++ newline :: rest).drop 1023 = newline :: rest := by
            rw [← hfull, List.drop_left]
          have hread : fgets 1023 (line ++ newline :: rest) = (line, newline :: rest) := by
            rw [fgets_take (by rwa [htake]), htake, hdrop]
          have hzeronl : 0 ∉ newline :: rest := by
            simp only [List.mem_cons, not_or]
            exact ⟨by decide, hzerorest⟩
          have hempty : ∀ l ∈ lines (newline :: rest), l.length ≤ 1023 := by
            have hcons : lines (newline :: rest) = [] :: lines rest :=
              lines_cons List.not_mem_nil
            rw [hcons]
            simpa using hrest
          have hword := strtokAll_append newline_delim [] rest
          rw [List.nil_append, strtokAll_nil, List.nil_append] at hword
          rw [hread, ih hzeronl hempty (by simp; omega), hword]
      · rw [lines_last hnewline] at hlines
        have hfits := hlines file (by simp)
        have htake : file.take 1023 = file := List.take_of_length_le hfits
        rw [fgets_take (by rwa [htake]), htake, List.drop_of_length_le hfits, buffers_nil]
        simp

end Buffers

section Counting

variable {fs : FileSystem} {filePath keyword file : List UInt8}

/-- Comparing a word after `rws` has been applied to it is testing for equality. -/
theorem strcmp_rws_iff {word : List UInt8} (hkeyword : 0 ∉ keyword) (hfile : 0 ∉ file)
    (hword : word ∈ strtokAll file) : strcmp keyword (rws word) = 0 ↔ word = keyword := by
  obtain ⟨-, hdelim, hbytes⟩ := mem_strtokAll hword
  rw [rws_of_no_space fun h => hdelim _ h (by decide)]
  constructor
  · intro h
    exact (strcmp_eq_zero hkeyword (fun h => hfile (hbytes 0 h)) h).symm
  · rintro rfl
    have hswap := strcmp_swap word word
    omega

/-- `search_test` of Project2 counts the words of the whole file that are the
keyword, as long as every line fits the buffer without its newline. No file
has a word that is empty or holds a delimiter. -/
theorem searchTest_counts (fs : FileSystem) (filePath keyword file : List UInt8)
    (hdir : fs.opendir filePath = none) (hopen : fs.fopen filePath = some file)
    (hfile : 0 ∉ file) (hkeyword : 0 ∉ keyword)
    (hlines : ∀ line ∈ lines file, line.length ≤ 1023) :
    searchTest fs filePath keyword = (strtokAll file).count keyword ∧
      ((keyword = [] ∨ ∃ c ∈ keyword, c ∈ delim) → searchTest fs filePath keyword = 0) := by
  have hcount : searchTest fs filePath keyword = (strtokAll file).count keyword := by
    have hwords := strtokAll_buffers file.length hfile hlines (Nat.le_refl _)
    have hsum : countIn rws keyword file =
        (strtokAll file).countP fun word => strcmp keyword (rws word) = 0 := by
      rw [countIn, ← hwords, List.countP_flatMap]
      rfl
    have hsame : (strtokAll file).countP (fun word => strcmp keyword (rws word) = 0) =
        (strtokAll file).count keyword := by
      apply List.countP_congr
      intro word hword
      simp only [decide_eq_true_eq, beq_iff_eq]
      exact strcmp_rws_iff hkeyword hfile hword
    rw [searchTest, searchWith, hdir, hopen]
    simp only [Option.isSome_none, Bool.false_eq_true, if_false]
    rw [hsum, hsame]
  refine ⟨hcount, ?_⟩
  intro hbad
  rw [hcount, List.count_eq_zero.mpr (not_mem_strtokAll hbad file)]
  rfl

/-- Two of three words, the last one without a newline. -/
theorem searchTest_counts_two :
    searchTest ⟨fun _ => none, fun _ => some (text "is \tit\n\n  is")⟩ (text "/d/f")
      (text "is") = 2 := by
  have hcount := (searchTest_counts ⟨fun _ => none, fun _ => some (text "is \tit\n\n  is")⟩
    (text "/d/f") (text "is") (text "is \tit\n\n  is") rfl rfl (by decide) (by decide)
    (by decide)).1
  rw [hcount]
  decide

end Counting

end Cse420.Lister
