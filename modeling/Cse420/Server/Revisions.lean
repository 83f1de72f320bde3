import Cse420.Server.RingOutputEnds
import Cse420.Server.SortedOutput

/-!
`server.c` and `server-rev1.c` do the same work in two ways. In the first a
thread writes the result of its file in one piece; in the second it puts every
line into the buffer of its child and a `Printer` writes them. The two files
`output.txt` have the same lines.
-/

namespace Cse420.Server.Revisions

open CMemory Lister Machine TextLines Interleaving
open Queue (Item)
open Output (files)
open SearchTest (FreeBehind decimal record records wordLoop)
open SortedOutput (Plain contents grep grepFile searches)
open Cse420.Server.Ring (MatchingLine)
open Cse420.Server.System (Args Setup Quiet openInput)

/-- The loop of `search_test` over the buffers: the lines that are put. -/
def lineLoop (fname keyword : List UInt8) : List (List UInt8) → Nat → Bool → List MatchingLine
  | [], _, _ => []
  | sbuffer :: rest, lineNum, found =>
      if wordLoop keyword (strtokAll sbuffer) found then
        ⟨fname, lineNum, sbuffer⟩ :: lineLoop fname keyword rest (lineNum + 1) false
      else lineLoop fname keyword rest (lineNum + 1) false

/-- `search_test` of `server-rev1.c`; there is no result where the path has no
slash. -/
def searchTest (fs : FileSystem) (filePath keyword : List UInt8) : Option (List MatchingLine) :=
  if (fs.opendir filePath).isSome then some []
  else
    match fs.fopen filePath with
    | none => some []
    | some file => do
        let s ← scanBack slash filePath (filePath.length - 1)
        let fname := filePath.drop (s + 1)
        return lineLoop fname keyword (buffers file.length file) 1 false

/-- What the workers of a child find. The path of a file has a slash, so that
there is a result for each. -/
def founds (fs : FileSystem) (item : Item) : List (List MatchingLine) :=
  (files fs item).map fun file => (searchTest fs file.dirpath file.keyword).getD []

section Lines

variable {fs : FileSystem} {name keyword file : List UInt8}

theorem digitChar_byte : ∀ d < 10, (Nat.digitChar d).toUInt8 = (48 + d).toUInt8 := by decide

/-- `%d` in the two models. -/
theorem text_toString (n : Nat) (hn : 0 < n) : text (toString n) = decimal n := by
  have hbytes (n : Nat) : text (toString n) = (Nat.toDigits 10 n).map Char.toUInt8 := by
    simp [text]
  induction n using Nat.strong_induction_on with
  | _ n ih =>
      rw [hbytes, decimal]
      by_cases hsmall : n < 10
      · rw [Nat.toDigits_of_lt_base hsmall, Nat.digits_of_lt 10 n (by omega) hsmall]
        simp [digitChar_byte n hsmall]
      · have hrest := ih (n / 10) (by omega) (by omega)
        rw [hbytes, decimal] at hrest
        rw [Nat.toDigits_of_base_le (by omega) (by omega), Nat.digits_def' (by omega) hn,
          List.map_append, hrest, List.reverse_cons, List.map_append]
        simp [digitChar_byte (n % 10) (by omega)]

theorem line_eq (fname sbuffer : List UInt8) {n : Nat} (hn : 0 < n) :
    (MatchingLine.mk fname n sbuffer).line = record fname n sbuffer := by
  have hcolon : text ":" = [SearchTest.colon] := by decide
  rw [MatchingLine.line, text_toString n hn, hcolon]
  simp [record]

/-- The flag is raised by the keyword. -/
theorem wordLoop_iff {piece : List UInt8} (hkeyword : 0 ∉ keyword) (hpiece : 0 ∉ piece) :
    wordLoop keyword (strtokAll piece) false = true ↔ keyword ∈ strtokAll piece := by
  rw [SearchTest.wordLoop_eq, Bool.false_or, List.any_eq_true]
  constructor
  · rintro ⟨word, hword, heq⟩
    have hzero : 0 ∉ word := fun h => hpiece ((mem_strtokAll hword).2.2 0 h)
    rwa [strcmp_eq_zero hkeyword hzero (of_decide_eq_true heq)]
  · intro hword
    have hself := strcmp_swap keyword keyword
    exact ⟨keyword, hword, decide_eq_true (by omega)⟩

/-- The lines that are put are the records of the pieces. -/
theorem lineLoop_eq (hkeyword : 0 ∉ keyword) {pieces : List (List UInt8)}
    (hpieces : ∀ piece ∈ pieces, 0 ∉ piece) {n : Nat} (hn : 0 < n) :
    (lineLoop name keyword pieces n false).map MatchingLine.line =
      records name keyword pieces n := by
  induction pieces generalizing n with
  | nil => rfl
  | cons piece rest ih =>
      obtain ⟨hpiece, hrest⟩ := List.forall_mem_cons.mp hpieces
      have htail := ih hrest (Nat.succ_pos n)
      simp only [lineLoop, records, wordLoop_iff hkeyword hpiece]
      split
      · rw [List.map_cons, htail, line_eq name piece hn]
      · exact htail

/-- What a worker finds in a file that can be read, and in one that can not. -/
theorem searchTest_plain {dirpath : Path} (hslash : slash ∉ name) (hkeyword : 0 ∉ keyword)
    (hplain : ∀ file ∈ openInput fs (join dirpath name), 0 ∉ file ∧ FreeBehind keyword file) :
    ((searchTest fs (join dirpath name) keyword).getD []).map MatchingLine.line =
      (((openInput fs (join dirpath name)).map (grepFile name keyword)).getD []).map
        (· ++ [newline]) := by
  unfold openInput at hplain ⊢
  unfold searchTest
  split
  · rfl
  · rename_i hdir
    rw [if_neg hdir] at hplain
    cases hopen : fs.fopen (join dirpath name) with
    | none => rfl
    | some file =>
        obtain ⟨hzero, hfree⟩ := hplain file (by simp [hopen])
        have hpieces : ∀ piece ∈ buffers file.length file, 0 ∉ piece := fun _ => buffers_zero
        have hname := SearchTest.scanBack_name dirpath name hslash
        have hdrop : (join dirpath name).drop (dirpath.length + 1) = name := by simp [join]
        rw [← join] at hname
        simp only [hname, Option.bind_eq_bind, Option.bind_some, hdrop, Option.pure_def,
          Option.getD_some, Option.map_some, lineLoop_eq hkeyword hpieces Nat.one_pos,
          SortedOutput.records_of_freeBehind name hzero hfree]

end Lines

section Agree

variable {fs : FileSystem} {item : Item} {requests : List Item}

/-- The lines a child gets are what its request should find. -/
theorem founds_lines (h : Plain fs item) (hkeyword : 0 ∉ item.keyword) :
    (founds fs item).flatten.map MatchingLine.line = (grep fs item).map (· ++ [newline]) := by
  have hcontents : grep fs item =
      (((fs.opendir item.dirpath).getD []).filter Output.Dirent.works).flatMap fun entry =>
        ((openInput fs (join item.dirpath entry.dName)).map
          (grepFile entry.dName item.keyword)).getD [] := by
    rw [grep, contents, List.filterMap_eq_flatMap_toList, List.flatMap_assoc]
    apply List.flatMap_congr
    intro entry _
    cases openInput fs (join item.dirpath entry.dName) <;> simp
  rw [hcontents, founds, files, Output.itemFiles, List.map_map, List.flatten_eq_flatMap,
    List.flatMap_map, List.map_flatMap, List.map_flatMap]
  apply List.flatMap_congr
  intro entry hentry
  exact searchTest_plain (h.names entry (List.mem_of_mem_filter hentry)).1 hkeyword
    fun _ => h.file hentry

variable {κ : Type} [DecidableEq κ]

/-- The lines of the file when the children of `server-rev1.c` have come to their
end. -/
theorem stuck_lines {ids : RingOutput.Ids κ} {size : Nat} (hsize : 1 ≤ size)
    (hplain : ∀ item ∈ requests, Plain fs item) (hkeyword : ∀ item ∈ requests, 0 ∉ item.keyword)
    (hfits : ∀ item ∈ requests, RingOutput.Fits size (founds fs item)) {semval : κ → Nat}
    {schedule : List RingOutput.Event} {t : RingOutput.State κ}
    (hrun : run (RingOutput.step ids size)
      (RingOutput.start ids size (requests.map (founds fs)) semval) schedule = some t)
    (hstuck : RingOutput.Stuck ids size t) :
    (textLines newline t.output).Perm (requests.flatMap (grep fs)) := by
  have hfit : ∀ found ∈ requests.map (founds fs), RingOutput.Fits size found := by
    intro found hfound
    obtain ⟨item, hitem, rfl⟩ := List.mem_map.mp hfound
    exact hfits item hitem
  obtain ⟨-, lines, houtput, hlines⟩ :=
    (RingOutput.good_run hsize hfit hrun).stuck hsize hfit hstuck
  have hfound : ((requests.map (founds fs)).flatten.map (List.map MatchingLine.line)).flatten =
      (requests.flatMap (grep fs)).map (· ++ [newline]) := by
    rw [← List.map_flatten, List.flatten_flatten, List.map_map, ← List.flatMap_def,
      List.map_flatMap, List.map_flatMap]
    apply List.flatMap_congr
    intro item hitem
    exact founds_lines (hplain item hitem) (hkeyword item hitem)
  have hclean : ∀ line ∈ requests.flatMap (grep fs), newline ∉ line := by
    intro line hline
    obtain ⟨item, hitem, hline⟩ := List.mem_flatMap.mp hline
    obtain ⟨found, hmem, hline⟩ := List.mem_flatMap.mp hline
    exact (hplain item hitem).newline hmem line hline
  have hperm := hlines.perm
  rw [hfound] at hperm
  have hended : ∀ line ∈ (requests.flatMap (grep fs)).map (· ++ [newline]), Ended newline line := by
    intro line hline
    obtain ⟨whole, hwhole, rfl⟩ := List.mem_map.mp hline
    exact ended_line (hclean whole hwhole)
  have hsame := textLines_perm hended hperm
  rw [← List.flatMap_def] at hsame
  rw [houtput]
  exact hsame.trans (List.Perm.of_eq (textLines_unlines hclean))

/-- The two revisions of the server agree. If both have done all that the clients
ask for, in whatever order and with whatever turns of their processes and threads,
then their files `output.txt` are the same when they are sorted. -/
theorem revisions_agree {κ' : Type} [DecidableEq κ'] (host : System.Host κ) (fs : FileSystem)
    (calls : List (Args × Mem)) (hsetup : Setup host.malloc fs calls)
    (hplain : ∀ item ∈ searches fs (calls.map Prod.fst), Plain fs item) (semval : κ → Nat)
    (schedule : List System.Event)
    (hfresh : ∀ event ∈ schedule, event.Fresh) (s : System.State κ)
    (hrun : (System.start host calls semval).bind (run (System.step host fs) · schedule) = some s)
    (hquiet : Quiet s) (ids' : RingOutput.Ids κ') (size : Nat) (hsize : 1 ≤ size)
    (requests : List Item) (hrequests : requests.Perm (searches fs (calls.map Prod.fst)))
    (hfits : ∀ item ∈ requests, RingOutput.Fits size (founds fs item)) (semval' : κ' → Nat)
    (schedule' : List RingOutput.Event) (t : RingOutput.State κ')
    (hrun' : run (RingOutput.step ids' size)
      (RingOutput.start ids' size (requests.map (founds fs)) semval') schedule' = some t)
    (hstuck : RingOutput.Stuck ids' size t) (order : TotalOrder (List UInt8)) :
    order.sort (textLines newline s.processes.output) =
      order.sort (textLines newline t.output) := by
  have hfirst := SortedOutput.output_lines hsetup hplain hfresh hrun hquiet
  have hsecond := stuck_lines hsize (fun item hitem => hplain item (hrequests.subset hitem))
    (fun item hitem => (SortedOutput.items_searches hsetup).2 item (hrequests.subset hitem)) hfits
    hrun' hstuck
  apply order.sort_eq_of_perm
  exact hfirst.trans ((hrequests.flatMap_right _).symm.trans hsecond.symm)

/-- Both revisions come to their end with the requests of two clients. -/
theorem revisions_agree_two :
    ∃ schedule s schedule' t, (System.start System.smallHost System.twoCalls fun _ => 0).bind
        (run (System.step System.smallHost System.inputFile) · schedule) = some s ∧
      run (RingOutput.step RingOutput.twoIds 10) (RingOutput.start RingOutput.twoIds 10
        ([⟨text "/d", text "w"⟩, ⟨text "/d", text "w"⟩].map (founds System.inputFile)) fun _ => 0)
        schedule' = some t ∧
      SortedOutput.bytewise.sort (textLines newline s.processes.output) =
        SortedOutput.bytewise.sort (textLines newline t.output) := by
  obtain ⟨schedule, s, hfresh, hrun, hquiet⟩ := System.quiet_two
  have hfits : ∀ item ∈ [Item.mk (text "/d") (text "w"), ⟨text "/d", text "w"⟩],
      RingOutput.Fits 10 (founds System.inputFile item) := by decide
  obtain ⟨schedule', t, hrun', hstuck⟩ := RingOutput.reaches_stuck (by decide : 0 < 10)
    (by decide) (RingOutput.good_start RingOutput.twoIds 10
      ([⟨text "/d", text "w"⟩, ⟨text "/d", text "w"⟩].map (founds System.inputFile)) fun _ => 0)
  refine ⟨schedule, s, schedule', t, hrun, hrun', ?_⟩
  exact revisions_agree System.smallHost System.inputFile System.twoCalls System.setup_two
    SortedOutput.plain_two (fun _ => 0) schedule hfresh s hrun hquiet RingOutput.twoIds 10
    (by omega)
    [⟨text "/d", text "w"⟩, ⟨text "/d", text "w"⟩] (.of_eq SortedOutput.searches_two.symm) hfits
    (fun _ => 0) schedule' t hrun' hstuck SortedOutput.bytewise

end Agree

end Cse420.Server.Revisions
