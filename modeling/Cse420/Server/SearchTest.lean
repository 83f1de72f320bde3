import Cse420.Lister.Words

/-!
`search_test` of the server. It numbers what `fgets` returns instead of lines,
and prints each piece as it was read. A line that does not fit the buffer with
its newline counts as several, and the last line of a file may leave a record
without a newline.
-/

namespace Cse420.Server.SearchTest

open CMemory Lister

def colon : UInt8 := ':'.toUInt8

/-- What `%d` prints for a line number. -/
def decimal (n : Nat) : List UInt8 :=
  (Nat.digits 10 n).reverse.map fun d => (48 + d).toUInt8

/-- `sprintf(line, "%s:%d:%s", fname, line_num, buffer)`. A file name has at most
255 bytes and a buffer 1023, so that `line` has room. -/
def record (fname : List UInt8) (lineNum : Nat) (buffer : List UInt8) : List UInt8 :=
  fname ++ colon :: (decimal lineNum ++ colon :: buffer)

/-- The loop over the words of one buffer with the flag it sets. -/
def wordLoop (keyword : List UInt8) : List (List UInt8) → Bool → Bool
  | [], found => found
  | word :: rest, found =>
      wordLoop keyword rest (if strcmp keyword word = 0 then true else found)

/-- The loop over the buffers: the line number, `found` and `result`. The `int`
`line_num` is a number without bound; it leaves `int` only from 2^31 lines on. -/
def lineLoop (fname keyword : List UInt8) :
    List (List UInt8) → Nat → Bool → List UInt8 → List UInt8
  | [], _, _, result => result
  | buffer :: rest, lineNum, found, result =>
      let line := record fname lineNum buffer
      if wordLoop keyword (strtokAll buffer) found then
        lineLoop fname keyword rest (lineNum + 1) false (result ++ line)
      else lineLoop fname keyword rest (lineNum + 1) false result

/-- `search_test`. The inner result is `NULL` for a directory and for a file that
does not open; there is no result where the path has no slash. -/
def searchTest (fs : FileSystem) (filePath keyword : List UInt8) :
    Option (Option (List UInt8)) :=
  if (fs.opendir filePath).isSome then some none
  else
    match fs.fopen filePath with
    | none => some none
    | some file => do
        let s ← scanBack slash filePath (filePath.length - 1)
        let fname := filePath.drop (s + 1)
        return some (lineLoop fname keyword (buffers file.length file) 1 false [])

/-- The records of those pieces that have the keyword among their words, in order
and with their numbers from `n` on. -/
def records (fname keyword : List UInt8) : List (List UInt8) → Nat → List (List UInt8)
  | [], _ => []
  | piece :: rest, n =>
      if keyword ∈ strtokAll piece then
        record fname n piece :: records fname keyword rest (n + 1)
      else records fname keyword rest (n + 1)

/-- What the search should report: `fname:n:line` with a newline for every line
that has the keyword as a word, numbered from one. -/
def reports (fname keyword file : List UInt8) : List (List UInt8) :=
  ((lines file).zipIdx 1).filterMap fun (line, n) =>
    if keyword ∈ strtokAll line then some (record fname n (line ++ [newline])) else none

/-- The lines at the start of a file that fit the buffer with their newline. -/
def wholeLines (file : List UInt8) : List (List UInt8) :=
  (lines file).dropLast.takeWhile (·.length ≤ 1022)

/-- The file from its first line on that is longer or has no newline. -/
def remainder (file : List UInt8) : List UInt8 :=
  file.drop ((wholeLines file).flatMap (· ++ [newline])).length

section Records

variable {fname keyword : List UInt8}

theorem decimal_toNat (n : Nat) :
    (decimal n).map (fun b => b.toNat - 48) = (Nat.digits 10 n).reverse := by
  rw [decimal, List.map_map, ← List.map_id (Nat.digits 10 n).reverse, List.map_map]
  apply List.map_congr_left
  intro d hd
  have hlt : d < 10 := Nat.digits_lt_base (by decide) (List.mem_reverse.mp hd)
  have hbyte : ((48 + d).toUInt8).toNat = 48 + d := by
    rw [UInt8.toNat_ofNat']
    omega
  simp only [Function.comp_apply, id_eq, hbyte]
  omega

theorem decimal_inj {m n : Nat} (h : decimal m = decimal n) : m = n := by
  have hdigits := congrArg (List.map fun b => b.toNat - 48) h
  rw [decimal_toNat, decimal_toNat] at hdigits
  exact Nat.digits_inj_iff.mp (List.reverse_injective hdigits)

theorem colon_not_mem_decimal (n : Nat) : colon ∉ decimal n := by
  intro h
  obtain ⟨d, hd, heq⟩ := List.mem_map.mp h
  have hlt : d < 10 := Nat.digits_lt_base (by decide) (List.mem_reverse.mp hd)
  have hbyte := congrArg UInt8.toNat heq
  rw [UInt8.toNat_ofNat', show colon.toNat = 58 from rfl] at hbyte
  omega

/-- A record gives back its number and its piece. -/
theorem record_inj {m n : Nat} {p q : List UInt8} (h : record fname m p = record fname n q) :
    m = n ∧ p = q := by
  have hrest : decimal m ++ colon :: p = decimal n ++ colon :: q := by
    simpa [record] using h
  have hsplit (n : Nat) (p : List UInt8) :
      scanTo colon (decimal n ++ colon :: p) = some (decimal n).length :=
    scanTo_append colon (decimal n) p (colon_not_mem_decimal n)
  have hlength : (decimal m).length = (decimal n).length := by
    have hm := hsplit m p
    rw [hrest, hsplit n q] at hm
    exact (Option.some.inj hm).symm
  obtain ⟨hdigits, hpiece⟩ := List.append_inj hrest hlength
  exact ⟨decimal_inj hdigits, (List.cons.inj hpiece).2⟩

theorem records_append (pieces more : List (List UInt8)) (n : Nat) :
    records fname keyword (pieces ++ more) n =
      records fname keyword pieces n ++ records fname keyword more (n + pieces.length) := by
  induction pieces generalizing n with
  | nil => simp [records]
  | cons piece rest ih =>
      have hnext : n + 1 + rest.length = n + (piece :: rest).length := by
        simp only [List.length_cons]
        omega
      rw [List.cons_append, records, records, ih, hnext]
      split <;> simp

/-- A record stands for one piece and carries its number. -/
theorem mem_records_iff {r : List UInt8} {pieces : List (List UInt8)} {n : Nat} :
    r ∈ records fname keyword pieces n ↔
      ∃ i piece, pieces[i]? = some piece ∧ keyword ∈ strtokAll piece ∧
        r = record fname (n + i) piece := by
  induction pieces generalizing n with
  | nil => simp [records]
  | cons piece rest ih =>
      have hrest : r ∈ records fname keyword rest (n + 1) ↔
          ∃ i p, (piece :: rest)[i + 1]? = some p ∧ keyword ∈ strtokAll p ∧
            r = record fname (n + (i + 1)) p := by
        rw [ih]
        simp only [List.getElem?_cons_succ, Nat.add_assoc, Nat.add_comm 1]
      have hsplit : (∃ i p, (piece :: rest)[i]? = some p ∧ keyword ∈ strtokAll p ∧
          r = record fname (n + i) p) ↔
          (keyword ∈ strtokAll piece ∧ r = record fname n piece) ∨
            ∃ i p, (piece :: rest)[i + 1]? = some p ∧ keyword ∈ strtokAll p ∧
              r = record fname (n + (i + 1)) p := by
        constructor
        · rintro ⟨i, p, hp, hword, hr⟩
          cases i with
          | zero =>
              obtain rfl : piece = p := by simpa using hp
              exact Or.inl ⟨hword, hr⟩
          | succ i => exact Or.inr ⟨i, p, hp, hword, hr⟩
        · rintro (⟨hword, hr⟩ | ⟨i, p, hp, hword, hr⟩)
          · exact ⟨0, piece, rfl, hword, hr⟩
          · exact ⟨i + 1, p, hp, hword, hr⟩
      rw [hsplit, ← hrest, records]
      split
      · rename_i hword
        simp [hword]
      · rename_i hword
        simp [hword]

theorem records_eq_nil_iff {pieces : List (List UInt8)} {n : Nat} :
    records fname keyword pieces n = [] ↔ ∀ piece ∈ pieces, keyword ∉ strtokAll piece := by
  induction pieces generalizing n with
  | nil => simp [records]
  | cons piece rest ih =>
      rw [records]
      split
      · rename_i hword
        simp [hword]
      · rename_i hword
        simp [hword, ih]

/-- The flag is raised by any word that compares equal. -/
theorem wordLoop_eq (words : List (List UInt8)) (found : Bool) :
    wordLoop keyword words found =
      (found || words.any fun word => strcmp keyword word = 0) := by
  induction words generalizing found with
  | nil => simp [wordLoop]
  | cons word rest ih =>
      rw [wordLoop, ih]
      by_cases h : strcmp keyword word = 0
      · simp [h]
      · simp [h]

/-- The loop over the buffers appends their records. -/
theorem lineLoop_eq (hkeyword : 0 ∉ keyword) (pieces : List (List UInt8))
    (hpieces : ∀ piece ∈ pieces, 0 ∉ piece) (n : Nat) (result : List UInt8) :
    lineLoop fname keyword pieces n false result =
      result ++ (records fname keyword pieces n).flatten := by
  induction pieces generalizing n result with
  | nil => simp [lineLoop, records]
  | cons piece rest ih =>
      have hrest := ih fun p hp => hpieces p (by simp [hp])
      have hfound : wordLoop keyword (strtokAll piece) false = true ↔
          keyword ∈ strtokAll piece := by
        rw [wordLoop_eq, Bool.false_or, List.any_eq_true]
        constructor
        · rintro ⟨word, hword, heq⟩
          have hzero : 0 ∉ word := fun h => hpieces piece (by simp) ((mem_strtokAll hword).2.2 0 h)
          rwa [strcmp_eq_zero hkeyword hzero (by simpa using heq)]
        · intro hword
          have hself := strcmp_swap keyword keyword
          exact ⟨keyword, hword, by simp; omega⟩
      simp only [lineLoop, records, hfound, hrest]
      split
      · simp
      · rfl

end Records

section Pieces

variable {fname keyword file : List UInt8}

theorem strtokAll_newline (line : List UInt8) :
    strtokAll (line ++ [newline]) = strtokAll line := by
  have h := strtokAll_append newline_delim line []
  rwa [strtokAll_nil, List.append_nil] at h

theorem filterMap_eq_records (pieces : List (List UInt8)) (n : Nat) :
    ((pieces.zipIdx n).filterMap fun (line, n) =>
        if keyword ∈ strtokAll line then some (record fname n (line ++ [newline])) else none) =
      records fname keyword (pieces.map (· ++ [newline])) n := by
  induction pieces generalizing n with
  | nil => rfl
  | cons line rest ih =>
      rw [List.zipIdx_cons, List.filterMap_cons, List.map_cons, records, strtokAll_newline]
      by_cases hword : keyword ∈ strtokAll line
      · simp [hword, ih]
      · simp [hword, ih]

/-- The reports are the records of the lines, each with its newline. -/
theorem reports_eq_records :
    reports fname keyword file = records fname keyword ((lines file).map (· ++ [newline])) 1 :=
  filterMap_eq_records (lines file) 1

theorem buffers_whole {line rest : List UInt8} (hzero : 0 ∉ line ++ newline :: rest)
    (hline : newline ∉ line) (hfits : line.length ≤ 1022) :
    buffers (line ++ newline :: rest).length (line ++ newline :: rest) =
      (line ++ [newline]) :: buffers rest.length rest := by
  have hrest : 0 ∉ rest := fun h => hzero (by simp [h])
  have hlength : (line ++ newline :: rest).length = line.length + rest.length + 1 := by
    simp only [List.length_append, List.length_cons]
    omega
  rw [hlength, buffers_step _ hzero (by simp), fgets_line hline (by omega),
    buffers_fuel hrest (by omega)]

theorem buffers_long (hzero : 0 ∉ file) (hne : file ≠ []) (hlong : newline ∉ file.take 1023) :
    buffers file.length file =
      file.take 1023 :: buffers (file.drop 1023).length (file.drop 1023) := by
  have hpos := List.length_pos_of_ne_nil hne
  have hrest : 0 ∉ file.drop 1023 := fun h => hzero (List.mem_of_mem_drop h)
  obtain ⟨n, hn⟩ : ∃ n, file.length = n + 1 := ⟨file.length - 1, by omega⟩
  rw [hn, buffers_step n hzero hne, fgets_take hlong, buffers_fuel hrest]
  simp only [List.length_drop]
  omega

/-- A line that does not fit: one piece of it is read, and a file with as many
lines is left. -/
theorem buffers_long_line {first rest : List UInt8} (hzero : 0 ∉ first ++ newline :: rest)
    (hfirst : newline ∉ first) (hlong : 1023 ≤ first.length) :
    buffers (first ++ newline :: rest).length (first ++ newline :: rest) =
        first.take 1023 :: buffers (first.drop 1023 ++ newline :: rest).length
          (first.drop 1023 ++ newline :: rest) ∧
      lines (first.drop 1023 ++ newline :: rest) = first.drop 1023 :: lines rest := by
  have htake : (first ++ newline :: rest).take 1023 = first.take 1023 :=
    List.take_append_of_le_length hlong
  have hdrop : (first ++ newline :: rest).drop 1023 = first.drop 1023 ++ newline :: rest :=
    List.drop_append_of_le_length hlong
  have hread := buffers_long hzero (by simp)
    (by rw [htake]; exact fun h => hfirst (List.mem_of_mem_take h))
  rw [htake, hdrop] at hread
  exact ⟨hread, lines_cons fun h => hfirst (List.mem_of_mem_drop h)⟩

/-- The lines and the buffers of a file agree up to its remainder, which begins
with a read that brings no newline. -/
theorem remainder_spec (hzero : 0 ∉ file) :
    lines file = wholeLines file ++ lines (remainder file) ∧
      buffers file.length file = (wholeLines file).map (· ++ [newline]) ++
        buffers (remainder file).length (remainder file) ∧
      newline ∉ (remainder file).take 1023 ∧ 0 ∉ remainder file := by
  induction file using file_induction with
  | last file hfile =>
      have hwhole : wholeLines file = [] := by simp [wholeLines, lines_last hfile]
      have hrest : remainder file = file := by simp [remainder, hwhole]
      rw [hwhole, hrest]
      exact ⟨rfl, rfl, fun h => hfile (List.mem_of_mem_take h), hzero⟩
  | cons line rest hline ih =>
      have hne : lines rest ≠ [] := List.splitOnP_ne_nil _ _
      by_cases hfits : line.length ≤ 1022
      · have hrestzero : 0 ∉ rest := fun h => hzero (by simp [h])
        have hwhole : wholeLines (line ++ newline :: rest) = line :: wholeLines rest := by
          rw [wholeLines, lines_cons hline, List.dropLast_cons_of_ne_nil hne]
          simp [hfits, wholeLines]
        have hrest : remainder (line ++ newline :: rest) = remainder rest := by
          rw [remainder, hwhole, List.flatMap_cons, List.length_append, ← List.drop_drop]
          have hfront : (line ++ newline :: rest).drop (line ++ [newline]).length = rest := by
            simp
          rw [hfront]
          rfl
        obtain ⟨hlines, hbuffers, hlong, hz⟩ := ih hrestzero
        rw [hwhole, hrest, lines_cons hline, buffers_whole hzero hline hfits]
        refine ⟨?_, ?_, hlong, hz⟩
        · rw [List.cons_append, ← hlines]
        · rw [List.map_cons, List.cons_append, ← hbuffers]
      · have hwhole : wholeLines (line ++ newline :: rest) = [] := by
          rw [wholeLines, lines_cons hline, List.dropLast_cons_of_ne_nil hne]
          simp [hfits]
        have hrest : remainder (line ++ newline :: rest) = line ++ newline :: rest := by
          simp [remainder, hwhole]
        rw [hwhole, hrest]
        refine ⟨rfl, rfl, ?_, hzero⟩
        rw [List.take_append_of_le_length (by omega)]
        exact fun h => hline (List.mem_of_mem_take h)

/-- A line that fits the buffer is read as one piece, not earlier than its
number says: with its newline, or without one at the end of the file. -/
theorem piece_of_line (hzero : 0 ∉ file) (i : Nat) (line : List UInt8)
    (hline : (lines file)[i]? = some line) (hfits : line.length ≤ 1022) (hne : line ≠ []) :
    ∃ c piece, (buffers file.length file)[c]? = some piece ∧ i ≤ c ∧
      (piece = line ++ [newline] ∨ piece = line) := by
  induction hlength : file.length using Nat.strong_induction_on generalizing file i with
  | _ n ih =>
      rw [← hlength]
      by_cases hnewline : newline ∈ file
      · obtain ⟨first, rest, rfl, hfirst⟩ := List.eq_append_cons_of_mem hnewline
        have hrestzero : 0 ∉ rest := fun h => hzero (by simp [h])
        rw [lines_cons hfirst] at hline
        by_cases hshort : first.length ≤ 1022
        · rw [buffers_whole hzero hfirst hshort]
          cases i with
          | zero =>
              obtain rfl : first = line := by simpa using hline
              exact ⟨0, _, rfl, Nat.le_refl 0, Or.inl rfl⟩
          | succ i =>
              rw [List.getElem?_cons_succ] at hline
              obtain ⟨c, piece, hpiece, hc, heq⟩ := ih rest.length
                (by simp only [List.length_append, List.length_cons] at hlength; omega)
                hrestzero i hline rfl
              exact ⟨c + 1, piece, by simpa using hpiece, by omega, heq⟩
        · cases i with
          | zero =>
              obtain rfl : first = line := by simpa using hline
              exact absurd hfits hshort
          | succ i =>
              obtain ⟨hread, hleft⟩ := buffers_long_line hzero hfirst (by omega)
              have hdropzero : 0 ∉ first.drop 1023 ++ newline :: rest := by
                simp only [List.mem_append, not_or] at hzero ⊢
                exact ⟨fun h => hzero.1 (List.mem_of_mem_drop h), hzero.2⟩
              have hlineleft : (lines (first.drop 1023 ++ newline :: rest))[i + 1]? =
                  some line := by
                rw [hleft]
                exact hline
              obtain ⟨c, piece, hpiece, hc, heq⟩ := ih _
                (by simp only [List.length_append, List.length_cons, List.length_drop] at hlength ⊢
                    omega)
                hdropzero (i + 1) hlineleft rfl
              rw [hread]
              exact ⟨c + 1, piece, by simpa using hpiece, by omega, heq⟩
      · rw [lines_last hnewline] at hline
        cases i with
        | zero =>
            obtain rfl : file = line := by simpa using hline
            have htake : file.take 1023 = file := List.take_of_length_le (by omega)
            rw [buffers_long hzero hne (by rwa [htake]), htake]
            exact ⟨0, file, rfl, Nat.le_refl 0, Or.inr rfl⟩
        | succ i => simp at hline

/-- If the records of the pieces are those of the lines, a line with the keyword
has another one behind it: its record has the number of a piece that was read too
early, and the piece for the line itself comes later. -/
theorem later_line (hzero : 0 ∉ file) (hlong : newline ∉ file.take 1023) {n : Nat}
    (hsame : records fname keyword (buffers file.length file) n =
      records fname keyword ((lines file).map (· ++ [newline])) n)
    {i : Nat} {line : List UInt8} (hline : (lines file)[i]? = some line)
    (hword : keyword ∈ strtokAll line) :
    ∃ i' line', i < i' ∧ (lines file)[i']? = some line' ∧ keyword ∈ strtokAll line' := by
  have hreport : record fname (n + i) (line ++ [newline]) ∈
      records fname keyword ((lines file).map (· ++ [newline])) n := by
    apply mem_records_iff.mpr
    refine ⟨i, line ++ [newline], by simp [hline], ?_, rfl⟩
    rwa [strtokAll_newline]
  rw [← hsame] at hreport
  obtain ⟨c, piece, hpiece, -, heq⟩ := mem_records_iff.mp hreport
  obtain ⟨hnumber, rfl⟩ := record_inj heq
  obtain rfl : i = c := by omega
  have hne : file ≠ [] := by
    rintro rfl
    simp [buffers_nil] at hpiece
  have hfits : line.length ≤ 1022 := by
    have := buffers_le (List.mem_of_getElem? hpiece)
    simp only [List.length_append, List.length_cons, List.length_nil] at this
    omega
  have hlinene : line ≠ [] := by
    rintro rfl
    simp [strtokAll_nil] at hword
  cases i with
  | zero =>
      -- the first read brings no newline
      rw [buffers_long hzero hne hlong] at hpiece
      have htake : file.take 1023 = line ++ [newline] := by simpa using hpiece
      rw [htake] at hlong
      simp at hlong
  | succ i =>
      by_cases hnewline : newline ∈ file
      · obtain ⟨first, rest, rfl, hfirst⟩ := List.eq_append_cons_of_mem hnewline
        have hfirstlong : 1023 ≤ first.length := le_length_of_take hlong
        obtain ⟨hread, hleft⟩ := buffers_long_line hzero hfirst hfirstlong
        have hdropzero : 0 ∉ first.drop 1023 ++ newline :: rest := by
          simp only [List.mem_append, not_or] at hzero ⊢
          exact ⟨fun h => hzero.1 (List.mem_of_mem_drop h), hzero.2⟩
        have hlineleft : (lines (first.drop 1023 ++ newline :: rest))[i + 1]? = some line := by
          rw [lines_cons hfirst] at hline
          rw [hleft]
          exact hline
        obtain ⟨c, piece, hlater, hc, hshape⟩ :=
          piece_of_line hdropzero (i + 1) line hlineleft hfits hlinene
        have hpieceword : keyword ∈ strtokAll piece := by
          rcases hshape with rfl | rfl
          · rwa [strtokAll_newline]
          · exact hword
        have hrecord : record fname (n + (c + 1)) piece ∈ records fname keyword
            (buffers (first ++ newline :: rest).length (first ++ newline :: rest)) n := by
          apply mem_records_iff.mpr
          refine ⟨c + 1, piece, ?_, hpieceword, rfl⟩
          rw [hread]
          simpa using hlater
        rw [hsame] at hrecord
        obtain ⟨i', whole, hwhole, hwholeword, heq'⟩ := mem_records_iff.mp hrecord
        obtain ⟨hnumber', rfl⟩ := record_inj heq'
        rw [List.getElem?_map] at hwhole
        obtain ⟨line', hline', rfl⟩ := Option.map_eq_some_iff.mp hwhole
        refine ⟨i', line', by omega, hline', ?_⟩
        rwa [strtokAll_newline] at hwholeword
      · rw [lines_last hnewline] at hline
        simp at hline

/-- From a read without a newline on, the pieces give the records of the lines
only if neither of them has the keyword. -/
theorem remainder_iff (hzero : 0 ∉ file) (hlong : newline ∉ file.take 1023) (n : Nat) :
    records fname keyword (buffers file.length file) n =
        records fname keyword ((lines file).map (· ++ [newline])) n ↔
      keyword ∉ strtokAll file ∧
        ∀ piece ∈ buffers file.length file, keyword ∉ strtokAll piece := by
  have hlines : records fname keyword ((lines file).map (· ++ [newline])) n = [] ↔
      keyword ∉ strtokAll file := by
    rw [records_eq_nil_iff, strtokAll_lines]
    simp [strtokAll_newline]
  constructor
  · intro hsame
    have hnone : keyword ∉ strtokAll file := by
      intro hword
      rw [strtokAll_lines, List.mem_flatMap] at hword
      obtain ⟨line, hline, hword⟩ := hword
      obtain ⟨i, hi⟩ := List.mem_iff_getElem?.mp hline
      -- there would be ever later lines with the keyword
      induction hleft : (lines file).length - i using Nat.strong_induction_on
        generalizing i line with
      | _ m ih =>
          obtain ⟨i', line', hless, hi', hword'⟩ := later_line hzero hlong hsame hi hword
          have hbound : i' < (lines file).length := (List.getElem?_eq_some_iff.mp hi').1
          exact ih _ (by omega) line' (List.mem_of_getElem? hi') hword' i' hi' rfl
    refine ⟨hnone, ?_⟩
    rw [hlines.mpr hnone] at hsame
    exact records_eq_nil_iff.mp hsame
  · rintro ⟨hnone, hpieces⟩
    rw [hlines.mpr hnone, records_eq_nil_iff.mpr hpieces]

end Pieces

section Result

/-- `fname` is what stands behind the last slash. -/
theorem scanBack_name (dir fname : List UInt8) (hslash : slash ∉ fname) :
    scanBack slash (dir ++ slash :: fname) ((dir ++ slash :: fname).length - 1) =
      some dir.length := by
  have hlength : (dir ++ slash :: fname).length - 1 = dir.length + fname.length := by
    simp
  have hback := scanBack_append slash dir fname [] hslash fname.length (Nat.le_refl _)
  rw [hlength]
  rwa [List.append_nil] at hback

/-- The keyword is no word of the file from its first line on that the buffer
does not take with its newline, nor of the pieces this part is read in. -/
def FreeBehind (keyword file : List UInt8) : Prop :=
  keyword ∉ strtokAll (remainder file) ∧
    ∀ piece ∈ buffers (remainder file).length (remainder file), keyword ∉ strtokAll piece

instance (keyword file : List UInt8) : Decidable (FreeBehind keyword file) :=
  inferInstanceAs (Decidable (_ ∧ _))

/-- `search_test` appends the records of the pieces it reads. They are the
reports of the lines exactly if the keyword does not occur behind the first line
that does not come whole; then the result is the reports one after the other. -/
theorem searchTest_reports_iff (fs : FileSystem) (dir fname keyword file : List UInt8)
    (hslash : slash ∉ fname) (hdir : fs.opendir (dir ++ slash :: fname) = none)
    (hopen : fs.fopen (dir ++ slash :: fname) = some file) (hfile : 0 ∉ file)
    (hkeyword : 0 ∉ keyword) :
    searchTest fs (dir ++ slash :: fname) keyword =
        some (some (records fname keyword (buffers file.length file) 1).flatten) ∧
      (records fname keyword (buffers file.length file) 1 = reports fname keyword file ↔
        FreeBehind keyword file) ∧
      (FreeBehind keyword file → searchTest fs (dir ++ slash :: fname) keyword =
        some (some (reports fname keyword file).flatten)) := by
  obtain ⟨hlines, hbuffers, hlong, hzero⟩ := remainder_spec hfile
  have hresult : searchTest fs (dir ++ slash :: fname) keyword =
      some (some (records fname keyword (buffers file.length file) 1).flatten) := by
    have hpieces : ∀ piece ∈ buffers file.length file, 0 ∉ piece := fun _ => buffers_zero
    have hname := scanBack_name dir fname hslash
    have hdrop : (dir ++ slash :: fname).drop (dir.length + 1) = fname := by simp
    simp only [searchTest, hdir, hopen, Option.isSome_none, Bool.false_eq_true, if_false, hname,
      Option.bind_eq_bind, Option.bind_some, hdrop, lineLoop_eq hkeyword _ hpieces,
      List.nil_append]
    rfl
  have hiff : records fname keyword (buffers file.length file) 1 = reports fname keyword file ↔
      FreeBehind keyword file := by
    rw [reports_eq_records, hbuffers, hlines, List.map_append, records_append, records_append,
      List.append_cancel_left_eq]
    exact remainder_iff hzero hlong _
  refine ⟨hresult, hiff, ?_⟩
  intro hfree
  rw [hresult, hiff.mpr hfree]

/-- A line with the keyword, one without, and the end of the file. -/
theorem searchTest_reports_dream :
    searchTest ⟨fun _ => none, fun _ => some (text "a dream\nno\n")⟩ (text "/d" ++ slash ::
      text "poe") (text "dream") = some (some (text "poe:1:a dream\n")) := by
  have hfree : FreeBehind (text "dream") (text "a dream\nno\n") := by decide
  have hreports := (searchTest_reports_iff
    ⟨fun _ => none, fun _ => some (text "a dream\nno\n")⟩ (text "/d") (text "poe")
    (text "dream") (text "a dream\nno\n") (by decide) rfl rfl (by decide) (by decide)).2.2 hfree
  rw [hreports]
  decide

/-- Without a newline at the end of the file the record has none. -/
theorem searchTest_unterminated :
    searchTest ⟨fun _ => none, fun _ => some (text "a dream")⟩ (text "/d/poe") (text "dream") =
        some (some (text "poe:1:a dream")) ∧
      (reports (text "poe") (text "dream") (text "a dream")).flatten =
        text "poe:1:a dream\n" := by
  constructor
  · decide
  · decide

end Result

end Cse420.Server.SearchTest
