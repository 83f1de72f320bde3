import Cse420.Lib.CMemory

/-!
`strtok_r` on a block of memory. It passes over delimiters, returns where the
word behind them begins, ends the word with a zero byte in place of the delimiter
behind it, and saves where the next call goes on. Called until it finds nothing
more, it returns the parts between delimiters that are not empty.
-/

namespace Cse420.Strtok

open CMemory

/-- How many bytes at the start of the block have a property. -/
def span (p : UInt8 → Bool) : Mem → Option Nat
  | [] => none
  | b :: rest => if p b then (span p rest).map (· + 1) else some 0

/-- One call that begins at `s`: the memory, the word if there is one, and where
the next call goes on. -/
def strtokR (delim : UInt8 → Bool) (m : Mem) (s : Nat) : Option (Mem × Option Nat × Nat) := do
  let skipped ← span delim (m.drop s)
  let word := s + skipped
  let first ← m[word]?
  if first = 0 then return (m, none, word)
  let length ← span (fun b => !delim b && b ≠ 0) (m.drop word)
  let last := word + length
  let behind ← m[last]?
  if behind = 0 then return (m, some word, last)
  let m ← store m last 0
  return (m, some word, last + 1)

/-- The parts of a string between delimiters that are not empty. -/
def words (delim : UInt8 → Bool) (str : List UInt8) : List (List UInt8) :=
  (str.splitOnP delim).filter (!·.isEmpty)

variable {delim : UInt8 → Bool}

theorem span_append {p : UInt8 → Bool} {front back : List UInt8} {c : UInt8}
    (hfront : ∀ b ∈ front, p b = true) (hc : p c = false) :
    span p (front ++ c :: back) = some front.length := by
  induction front with
  | nil => simp [span, hc]
  | cons b rest ih =>
      obtain ⟨hb, hrest⟩ := List.forall_mem_cons.mp hfront
      rw [List.cons_append, span, if_pos hb, ih hrest]
      rfl

theorem words_nil : words delim [] = [] := rfl

theorem words_delim {c : UInt8} (hc : delim c = true) (str : List UInt8) :
    words delim (c :: str) = words delim str := by
  unfold words
  rw [List.splitOnP_cons_eq_if_modifyHead, if_pos hc]
  rfl

/-- Delimiters in front of a string make no difference. -/
theorem words_skip {skipped : List UInt8} (h : ∀ b ∈ skipped, delim b = true)
    (str : List UInt8) : words delim (skipped ++ str) = words delim str := by
  induction skipped with
  | nil => rfl
  | cons b rest ih =>
      obtain ⟨hb, hrest⟩ := List.forall_mem_cons.mp h
      rw [List.cons_append, words_delim hb, ih hrest]

theorem words_single {word : List UInt8} (hne : word ≠ [])
    (hword : ∀ b ∈ word, delim b = false) : words delim word = [word] := by
  unfold words
  rw [List.splitOnP_eq_singleton hword]
  simp [hne]

theorem words_cons {word : List UInt8} (hne : word ≠ [])
    (hword : ∀ b ∈ word, delim b = false) {c : UInt8} (hc : delim c = true)
    (rest : List UInt8) : words delim (word ++ c :: rest) = word :: words delim rest := by
  unfold words
  rw [List.splitOnP_append_cons_of_forall_mem hword c hc]
  simp [hne]

/-- There is at most one word more than there are delimiters. -/
theorem words_length_le (delim : UInt8 → Bool) (str : List UInt8) :
    (words delim str).length ≤ str.countP delim + 1 := by
  have hparts : (str.splitOnP delim).length = str.countP delim + 1 := by
    induction str with
    | nil => rfl
    | cons c rest ih =>
        rw [List.splitOnP_cons_eq_if_modifyHead, List.countP_cons]
        split
        · rw [List.length_cons, ih]
        · rw [List.length_modifyHead, ih]
  rw [← hparts]
  exact List.length_filter_le _ _

/-- The string that begins at a place of the block. -/
theorem cstring_at (front back : List UInt8) {word : List UInt8} (h : 0 ∉ word) :
    cstring ((front ++ (word ++ 0 :: back)).drop front.length) = some word := by
  rw [List.drop_left]
  exact cstring_append word back h

theorem span_split (p : UInt8 → Bool) (str : List UInt8) :
    ∃ front rest, str = front ++ rest ∧ (∀ b ∈ front, p b = true) ∧
      ∀ c ∈ rest.head?, p c = false := by
  induction str with
  | nil => exact ⟨[], [], rfl, by simp, by simp⟩
  | cons b str ih =>
      cases hb : p b with
      | false => exact ⟨[], b :: str, rfl, by simp, by simpa using hb⟩
      | true =>
          obtain ⟨front, rest, rfl, hfront, hrest⟩ := ih
          exact ⟨b :: front, rest, rfl, List.forall_mem_cons.mpr ⟨hb, hfront⟩, hrest⟩

/-- A string is delimiters, a word behind them, and the end or a delimiter with
what is behind it. -/
theorem words_split (delim : UInt8 → Bool) (str : List UInt8) :
    ∃ skipped word rest, str = skipped ++ (word ++ rest) ∧
      (∀ b ∈ skipped, delim b = true) ∧ (∀ b ∈ word, delim b = false) ∧
      (word = [] → rest = []) ∧ ∀ c ∈ rest.head?, delim c = true := by
  obtain ⟨skipped, behind, rfl, hskipped, hbehind⟩ := span_split delim str
  obtain ⟨word, rest, rfl, hword, hrest⟩ := span_split (fun b => !delim b) behind
  simp only [Bool.not_eq_true', Bool.not_eq_false'] at hword hrest
  refine ⟨skipped, word, rest, rfl, hskipped, hword, ?_, hrest⟩
  rintro rfl
  cases rest with
  | nil => rfl
  | cons c rest =>
      have hno := hbehind c rfl
      rw [hrest c rfl] at hno
      cases hno

section Call

variable (front back : List UInt8) {skipped word : List UInt8}

/-- Behind the delimiters the string is at its end. -/
theorem strtokR_none (hdelim : delim 0 = false) (hskipped : ∀ b ∈ skipped, delim b = true) :
    strtokR delim (front ++ (skipped ++ 0 :: back)) front.length =
      some (front ++ (skipped ++ 0 :: back), none, front.length + skipped.length) := by
  have hend : (front ++ (skipped ++ 0 :: back))[front.length + skipped.length]? = some 0 := by
    simp
  unfold strtokR
  rw [List.drop_left, span_append hskipped hdelim]
  simp only [Option.bind_eq_bind, Option.bind_some, hend]
  rfl

/-- Where the word begins, and how long it is. -/
theorem strtokR_word (hskipped : ∀ b ∈ skipped, delim b = true) (hne : word ≠ [])
    (hword : ∀ b ∈ word, delim b = false) (hzero : 0 ∉ word) {c : UInt8}
    (hc : c = 0 ∨ delim c = true) :
    strtokR delim (front ++ (skipped ++ (word ++ c :: back))) front.length =
      if c = 0 then
        some (front ++ (skipped ++ (word ++ c :: back)), some (front.length + skipped.length),
          front.length + skipped.length + word.length)
      else
        some (front ++ (skipped ++ (word ++ 0 :: back)), some (front.length + skipped.length),
          front.length + skipped.length + word.length + 1) := by
  obtain ⟨first, others, rfl⟩ := List.exists_cons_of_ne_nil hne
  have hskip : span delim (skipped ++ (first :: others ++ c :: back)) = some skipped.length :=
    span_append hskipped (hword first List.mem_cons_self)
  have hfirst : (front ++ (skipped ++ (first :: others ++ c :: back)))[front.length +
      skipped.length]? = some first := by
    simp
  have hnonzero : first ≠ 0 := by
    rintro rfl
    exact hzero List.mem_cons_self
  have hdrop : (front ++ (skipped ++ (first :: others ++ c :: back))).drop
      (front.length + skipped.length) = first :: others ++ c :: back := by
    rw [← List.append_assoc, ← List.length_append, List.drop_left]
  have hspan : span (fun b => !delim b && b ≠ 0) (first :: others ++ c :: back) =
      some (first :: others).length := by
    apply span_append
    · intro b hb
      have hb0 : b ≠ 0 := by
        rintro rfl
        exact hzero hb
      simp [hword b hb, hb0]
    · rcases hc with rfl | hc
      · simp
      · simp [hc]
  have hassoc (b : UInt8) : front ++ (skipped ++ (first :: others ++ b :: back)) =
      (front ++ skipped ++ (first :: others)) ++ b :: back := by
    simp
  have hlength : (front ++ skipped ++ (first :: others)).length =
      front.length + skipped.length + (first :: others).length := by
    simp only [List.length_append]
  have hlast : (front ++ (skipped ++ (first :: others ++ c :: back)))[front.length +
      skipped.length + (first :: others).length]? = some c := by
    rw [hassoc, ← hlength, List.getElem?_append_right (Nat.le_refl _), Nat.sub_self]
    rfl
  have hstore := store_append (front ++ skipped ++ (first :: others)) back c 0
  rw [hlength, ← hassoc, ← hassoc] at hstore
  unfold strtokR
  rw [List.drop_left, hskip]
  simp only [Option.bind_eq_bind, Option.bind_some, hfirst, hnonzero, if_false, hdrop, hspan,
    hlast, hstore]
  rfl

end Call

/-- One call on the rest of a string. Either there is no word left, or the first
one is found and the next call goes on with what is behind it. -/
theorem strtokR_spec (delim : UInt8 → Bool) (hdelim : delim 0 = false)
    (front back : List UInt8) {rest : List UInt8} (hzero : 0 ∉ rest) :
    (words delim rest = [] ∧ ∃ s,
      strtokR delim (front ++ (rest ++ 0 :: back)) front.length =
        some (front ++ (rest ++ 0 :: back), none, s)) ∨
    ∃ word rest' front' back' start, words delim rest = word :: words delim rest' ∧
      strtokR delim (front ++ (rest ++ 0 :: back)) front.length =
        some (front' ++ (rest' ++ 0 :: back'), some start, front'.length) ∧
      cstring ((front' ++ (rest' ++ 0 :: back')).drop start) = some word ∧
      0 ∉ rest' ∧ rest'.length < rest.length := by
  obtain ⟨skipped, word, behind, rfl, hskipped, hword, hempty, hbehind⟩ :=
    words_split delim rest
  simp only [List.mem_append, not_or] at hzero
  rw [words_skip hskipped]
  rcases eq_or_ne word [] with rfl | hne
  · obtain rfl := hempty rfl
    left
    refine ⟨rfl, front.length + skipped.length, ?_⟩
    simp only [List.append_nil]
    exact strtokR_none front back hdelim hskipped
  · right
    have hpos := List.length_pos_of_ne_nil hne
    cases behind with
    | nil =>
        refine ⟨word, [], front ++ (skipped ++ word), back, front.length + skipped.length,
          ?_, ?_, ?_, List.not_mem_nil, ?_⟩
        · rw [List.append_nil, words_single hne hword, words_nil]
        · have hcall := strtokR_word front back hskipped hne hword hzero.2.1 (Or.inl rfl)
          rw [if_pos rfl] at hcall
          simpa [Nat.add_assoc] using hcall
        · have hstring := cstring_at (front ++ skipped) back hzero.2.1
          simpa using hstring
        · simp
          omega
    | cons c rest' =>
        have hc := hbehind c rfl
        have hc0 : c ≠ 0 := by
          rintro rfl
          rw [hdelim] at hc
          cases hc
        refine ⟨word, rest', front ++ (skipped ++ (word ++ [0])), back,
          front.length + skipped.length, ?_, ?_, ?_, ?_, ?_⟩
        · exact words_cons hne hword hc rest'
        · have hcall := strtokR_word front (rest' ++ 0 :: back) hskipped hne hword hzero.2.1
            (Or.inr hc)
          rw [if_neg hc0] at hcall
          simpa [Nat.add_assoc] using hcall
        · have hstring := cstring_at (front ++ skipped) (rest' ++ 0 :: back) hzero.2.1
          simpa using hstring
        · intro hin
          exact hzero.2.2 (List.mem_cons_of_mem _ hin)
        · simp
          omega

end Cse420.Strtok
