import Cse420.Lib.TextLines
import Cse420.Server.SystemEnds

/-!
What the tests of the repository look at. They sort `output.txt` and compare it
with a file of lines, so that nothing depends on the order in which clients,
children and threads had their turns. The lines are those that a search of the
directories, line by line, finds for the lines of the clients' files.
-/

namespace Cse420.Server.SortedOutput

open CMemory Lister Machine TextLines
open Queue (Item space exitReq splitItem asked asks Accepted)
open Output (expected files itemFiles result)
open SearchTest (FreeBehind record records reports)
open Cse420.Server.System (Args Setup Quiet Event State openInput items start step)

/-- `name:n:line` for every line of the file that has the keyword as a word. -/
def grepFile (name keyword file : List UInt8) : List (List UInt8) :=
  ((lines file).zipIdx 1).filterMap fun numbered =>
    if (strtokAll numbered.1).contains keyword then some (record name numbered.2 numbered.1)
    else none

/-- The files of a directory that are searched, with their names. -/
def contents (fs : FileSystem) (dirpath : Path) : List (List UInt8 × List UInt8) :=
  (((fs.opendir dirpath).getD []).filter Output.Dirent.works).filterMap fun entry =>
    (openInput fs (join dirpath entry.dName)).map fun file => (entry.dName, file)

/-- What a search should find. -/
def grep (fs : FileSystem) (item : Item) : List (List UInt8) :=
  (contents fs item.dirpath).flatMap fun found => grepFile found.1 item.keyword found.2

/-- The directory and the keyword of a request. -/
def search (r : List UInt8) : Item :=
  ⟨r.takeWhile (· ≠ space), (r.dropWhile (· ≠ space)).tail⟩

/-- The searches the clients ask for. -/
def searches (fs : FileSystem) (calls : List Args) : List Item :=
  ((calls.flatMap (Args.asks fs)).filter (· ≠ exitReq)).map search

/-- The names of the files have no newline, and their lines are numbered and
printed as they are. -/
structure Plain (fs : FileSystem) (item : Item) : Prop where
  names : ∀ entry ∈ (fs.opendir item.dirpath).getD [], slash ∉ entry.dName ∧ newline ∉ entry.dName
  files : ∀ found ∈ contents fs item.dirpath, 0 ∉ found.2 ∧ FreeBehind item.keyword found.2

section Files

variable {fs : FileSystem} {item : Item} {name keyword file : List UInt8}

theorem record_newline (name line : List UInt8) (n : Nat) :
    record name n (line ++ [newline]) = record name n line ++ [newline] := by
  simp [record]

/-- The reports are what is found, line by line. -/
theorem reports_eq (name keyword file : List UInt8) :
    reports name keyword file = (grepFile name keyword file).map (· ++ [newline]) := by
  rw [reports, grepFile, List.map_filterMap]
  apply List.filterMap_congr
  rintro ⟨line, n⟩ -
  by_cases hword : keyword ∈ strtokAll line
  · simp [hword, record_newline]
  · simp [hword]

theorem newline_not_mem_decimal (n : Nat) : newline ∉ SearchTest.decimal n := by
  intro h
  obtain ⟨d, hd, heq⟩ := List.mem_map.mp h
  have hlt : d < 10 := Nat.digits_lt_base (by decide) (List.mem_reverse.mp hd)
  have hbyte := congrArg UInt8.toNat heq
  rw [UInt8.toNat_ofNat', show newline.toNat = 10 from rfl] at hbyte
  omega

theorem newline_not_mem_grepFile (hname : newline ∉ name) :
    ∀ line ∈ grepFile name keyword file, newline ∉ line := by
  intro found hfound
  obtain ⟨⟨line, n⟩, hline, hrecord⟩ := List.mem_filterMap.mp hfound
  simp only [Option.ite_none_right_eq_some, Option.some.injEq] at hrecord
  have hmem : line ∈ lines file := (List.mem_zipIdx hline).2.2 ▸ List.getElem_mem _
  have hline : newline ∉ line := by
    intro h
    simpa using (mem_splitOnP hmem).1 newline h
  rw [← hrecord.2, record]
  simp only [List.mem_append, List.mem_cons, not_or]
  exact ⟨hname, by decide, newline_not_mem_decimal n, by decide, hline⟩

/-- The records of the pieces that are read are those of the lines. -/
theorem records_of_freeBehind (name : List UInt8) (hzero : 0 ∉ file)
    (hfree : FreeBehind keyword file) :
    records name keyword (buffers file.length file) 1 =
      (grepFile name keyword file).map (· ++ [newline]) := by
  obtain ⟨hlines, hbuffers, hlong, hrest⟩ := SearchTest.remainder_spec hzero
  rw [← reports_eq, SearchTest.reports_eq_records, hbuffers, hlines, List.map_append,
    SearchTest.records_append, SearchTest.records_append, List.append_cancel_left_eq]
  exact (SearchTest.remainder_iff hrest hlong _).mpr hfree

/-- The result of a file that can be read, and of one that can not. -/
theorem result_plain {dirpath : Path} (hslash : slash ∉ name) (hkeyword : 0 ∉ keyword)
    (hplain : ∀ file ∈ openInput fs (join dirpath name), 0 ∉ file ∧ FreeBehind keyword file) :
    result fs ⟨join dirpath name, keyword⟩ =
      (openInput fs (join dirpath name)).map fun file =>
        unlines newline (grepFile name keyword file) := by
  unfold openInput at hplain ⊢
  unfold result SearchTest.searchTest
  split
  · rfl
  · rename_i hdir
    rw [if_neg hdir] at hplain
    cases hopen : fs.fopen (join dirpath name) with
    | none => rfl
    | some file =>
        obtain ⟨hzero, hfree⟩ := hplain file (by simp [hopen])
        have hpieces : ∀ piece ∈ buffers file.length file, 0 ∉ piece := fun _ => buffers_zero
        have hname := SearchTest.scanBack_name dirpath name hslash
        have hdrop : (join dirpath name).drop (dirpath.length + 1) = name := by simp [join]
        rw [← join] at hname
        simp only [hname, Option.bind_eq_bind, Option.bind_some, hdrop,
          SearchTest.lineLoop_eq hkeyword _ hpieces, List.nil_append, Option.pure_def,
          Option.join_some, Option.map_some, records_of_freeBehind name hzero hfree, unlines,
          List.flatMap]

end Files

section Requests

variable {fs : FileSystem} {item : Item} {requests : List Item}

theorem Plain.file (h : Plain fs item) {entry : Dirent}
    (hentry : entry ∈ ((fs.opendir item.dirpath).getD []).filter Output.Dirent.works)
    {file : List UInt8} (hfile : file ∈ openInput fs (join item.dirpath entry.dName)) :
    0 ∉ file ∧ FreeBehind item.keyword file := by
  apply h.files (entry.dName, file)
  exact List.mem_filterMap.mpr ⟨entry, hentry, by simp [Option.mem_def.mp hfile]⟩

/-- The results of one request. -/
theorem results_plain (h : Plain fs item) (hkeyword : 0 ∉ item.keyword) :
    (files fs item).filterMap (result fs) = (contents fs item.dirpath).map fun found =>
      unlines newline (grepFile found.1 item.keyword found.2) := by
  rw [files, itemFiles, contents, List.filterMap_map, List.map_filterMap]
  apply List.filterMap_congr
  intro entry hentry
  have hnames := h.names entry (List.mem_of_mem_filter hentry)
  rw [Function.comp_apply, result_plain hnames.1 hkeyword fun _ => h.file hentry, Option.map_map]
  rfl

theorem Plain.newline (h : Plain fs item) {found : List UInt8 × List UInt8}
    (hfound : found ∈ contents fs item.dirpath) :
    ∀ line ∈ grepFile found.1 item.keyword found.2, newline ∉ line := by
  obtain ⟨entry, hentry, hmap⟩ := List.mem_filterMap.mp hfound
  obtain ⟨file, -, rfl⟩ := Option.map_eq_some_iff.mp hmap
  exact newline_not_mem_grepFile (h.names entry (List.mem_of_mem_filter hentry)).2

/-- The results of the requests are texts, and their lines are what is found. -/
theorem expected_lines (hplain : ∀ item ∈ requests, Plain fs item)
    (hkeyword : ∀ item ∈ requests, 0 ∉ item.keyword) :
    (∀ content ∈ expected fs requests, Ended newline content) ∧
      (expected fs requests).flatMap (textLines newline) = requests.flatMap (grep fs) := by
  induction requests with
  | nil => simp [expected]
  | cons item requests ih =>
      obtain ⟨hitem, hrest⟩ := List.forall_mem_cons.mp hplain
      obtain ⟨hword, hwords⟩ := List.forall_mem_cons.mp hkeyword
      obtain ⟨hended, hlines⟩ := ih hrest hwords
      have hsplit : expected fs (item :: requests) =
          (contents fs item.dirpath).map (fun found =>
            unlines newline (grepFile found.1 item.keyword found.2)) ++ expected fs requests := by
        rw [← results_plain hitem hword, expected, List.flatMap_cons, List.filterMap_append]
        rfl
      rw [hsplit]
      constructor
      · rw [List.forall_mem_append]
        refine ⟨?_, hended⟩
        intro content hcontent
        obtain ⟨found, hfound, rfl⟩ := List.mem_map.mp hcontent
        exact ⟨_, hitem.newline hfound, rfl⟩
      · rw [List.flatMap_append, hlines, List.flatMap_cons, List.flatMap_map, grep]
        congr 1
        apply List.flatMap_congr
        intro found hfound
        exact textLines_unlines (hitem.newline hfound)

/-- The lines of a file that holds the results in some order. -/
theorem lines_of_results (hplain : ∀ item ∈ requests, Plain fs item)
    (hkeyword : ∀ item ∈ requests, 0 ∉ item.keyword) {results : List (List UInt8)}
    (hperm : results.Perm (expected fs requests)) :
    (textLines newline results.flatten).Perm (requests.flatMap (grep fs)) := by
  obtain ⟨hended, hlines⟩ := expected_lines hplain hkeyword
  rw [← hlines, ← textLines_flatten hended]
  exact textLines_perm hended hperm

/-- A request is the exit command or has a space. -/
theorem asked_cases {file r : List UInt8} (hr : r ∈ asked file) : r = exitReq ∨ space ∈ r := by
  obtain ⟨line, -, hasks⟩ := List.mem_filterMap.mp hr
  by_cases hexit : line = exitReq
  · left
    rw [hexit] at hasks
    exact Option.some.inj (hasks.symm.trans (by decide))
  · right
    obtain ⟨pre, path, tail, -, -, -, hpath⟩ := Queue.asks_search hasks hexit
    simp [hpath]

/-- `dequeueItem` takes a request for the search it stands for. -/
theorem splitItem_search {r : List UInt8} (hspace : space ∈ r) (hzero : 0 ∉ r) :
    splitItem (r ++ [0]) = some (search r) ∧ 0 ∉ (search r).keyword := by
  obtain ⟨path, keyword, rfl, hpath⟩ := List.eq_append_cons_of_mem hspace
  have hall : ∀ b ∈ path, decide (b ≠ space) = true := by
    intro b hb
    simpa using ne_of_mem_of_not_mem hb hpath
  have hsearch : search (path ++ space :: keyword) = ⟨path, keyword⟩ := by
    rw [search, List.takeWhile_append_of_pos hall, List.dropWhile_append_of_pos hall]
    simp
  rw [hsearch]
  refine ⟨Queue.splitItem_spec path keyword hpath hzero, ?_⟩
  intro h
  exact hzero (by simp [h])

theorem items_eq {requests : List (List UInt8)}
    (hrequests : ∀ r ∈ requests, r = exitReq ∨ space ∈ r ∧ 0 ∉ r) :
    items requests = (requests.filter (· ≠ exitReq)).map search := by
  induction requests with
  | nil => rfl
  | cons r requests ih =>
      obtain ⟨hfirst, hrest⟩ := List.forall_mem_cons.mp hrequests
      rcases hfirst with rfl | ⟨hspace, hzero⟩
      · have hexit : splitItem (exitReq ++ [0]) = none := by decide
        simpa [items, List.filterMap_cons, hexit] using ih hrest
      · have hne : r ≠ exitReq := by
          rintro rfl
          exact absurd hspace (by decide)
        simpa [items, List.filterMap_cons, (splitItem_search hspace hzero).1, hne] using ih hrest

variable {calls : List (Args × Mem)}

theorem asks_cases {malloc : Malloc} (hsetup : Setup malloc fs calls) :
    ∀ r ∈ calls.flatMap (fun call => call.1.asks fs), r = exitReq ∨ space ∈ r ∧ 0 ∉ r := by
  intro r hr
  obtain ⟨call, hcall, hr⟩ := List.mem_flatMap.mp hr
  unfold Args.asks at hr
  cases hpath : call.1.path with
  | none =>
      simp only [hpath, List.mem_singleton] at hr
      exact .inl hr
  | some path =>
      simp only [hpath] at hr
      cases hfile : openInput fs path with
      | none => simp [hfile] at hr
      | some file =>
          simp only [hfile, Option.map_some, Option.getD_some] at hr
          have hclean := (hsetup.files call hcall path hpath file hfile).clean r hr
          rcases asked_cases hr with hexit | hspace
          · exact .inl hexit
          · exact .inr ⟨hspace, hclean.2.2⟩

/-- The requests are the searches the clients ask for. -/
theorem items_searches {malloc : Malloc} (hsetup : Setup malloc fs calls) :
    items (calls.flatMap fun call => call.1.asks fs) = searches fs (calls.map Prod.fst) ∧
      ∀ item ∈ searches fs (calls.map Prod.fst), 0 ∉ item.keyword := by
  have hcases := asks_cases hsetup
  have hsame : (calls.map Prod.fst).flatMap (Args.asks fs) =
      calls.flatMap fun call => call.1.asks fs := List.flatMap_map ..
  rw [searches, hsame]
  refine ⟨items_eq hcases, ?_⟩
  intro item hitem
  obtain ⟨r, hr, rfl⟩ := List.mem_map.mp hitem
  obtain ⟨hmem, hne⟩ := List.mem_filter.mp hr
  rcases hcases r hmem with hexit | ⟨hspace, hzero⟩
  · simp [hexit] at hne
  · exact (splitItem_search hspace hzero).2

end Requests

variable {κ : Type} [DecidableEq κ]

theorem output_lines {host : System.Host κ} {fs : FileSystem} {calls : List (Args × Mem)}
    {semval : κ → Nat} (hsetup : Setup host.malloc fs calls)
    (hplain : ∀ item ∈ searches fs (calls.map Prod.fst), Plain fs item) {schedule : List Event}
    (hfresh : ∀ event ∈ schedule, event.Fresh) {s : State κ}
    (hrun : (start host calls semval).bind (run (step host fs) · schedule) = some s)
    (hquiet : Quiet s) :
    (textLines newline s.processes.output).Perm
      ((searches fs (calls.map Prod.fst)).flatMap (grep fs)) := by
  obtain ⟨results, hperm, houtput⟩ := System.quiet_output hsetup hfresh hrun hquiet
  obtain ⟨hitems, hkeyword⟩ := items_searches hsetup
  rw [hitems] at hperm
  rw [houtput]
  exact lines_of_results hplain hkeyword hperm

/-- Whatever the turns of clients, server, children and threads were: when all is
done, `output.txt` has the lines that the searches find, and sorted it is the file
that a test compares it with. -/
theorem sorted_output (host : System.Host κ) (fs : FileSystem) (calls : List (Args × Mem))
    (semval : κ → Nat) (hsetup : Setup host.malloc fs calls)
    (hplain : ∀ item ∈ searches fs (calls.map Prod.fst), Plain fs item)
    (schedule : List Event) (hfresh : ∀ event ∈ schedule, event.Fresh) (s : State κ)
    (hrun : (start host calls semval).bind (run (step host fs) · schedule) = some s)
    (hquiet : Quiet s) (order : TotalOrder (List UInt8)) :
    order.sort (textLines newline s.processes.output) =
      order.sort ((searches fs (calls.map Prod.fst)).flatMap (grep fs)) :=
  order.sort_eq_of_perm (output_lines hsetup hplain hfresh hrun hquiet)

/-- The order of `sort` in the C locale. -/
def bytewise : TotalOrder (List UInt8) where
  le a b := decide (a ≤ b)
  trans a b c hab hbc := by
    simp only [decide_eq_true_eq] at hab hbc ⊢
    exact List.le_trans hab hbc
  total a b := by
    simp only [Bool.or_eq_true, decide_eq_true_eq]
    exact List.le_total a b
  antisymm a b hab hba := by
    simp only [decide_eq_true_eq] at hab hba
    exact List.le_antisymm hab hba

theorem searches_two : searches System.inputFile (System.twoCalls.map Prod.fst) =
    [⟨text "/d", text "w"⟩, ⟨text "/d", text "w"⟩] := by decide

theorem plain_two : ∀ item ∈ searches System.inputFile (System.twoCalls.map Prod.fst),
    Plain System.inputFile item := by
  rw [searches_two]
  have hplain : Plain System.inputFile ⟨text "/d", text "w"⟩ := ⟨by decide, by decide⟩
  simp [hplain]

/-- Two clients with the same file: every line is there twice. -/
theorem sorted_output_two :
    ∃ schedule s, (start System.smallHost System.twoCalls fun _ => 0).bind
        (run (step System.smallHost System.inputFile) · schedule) = some s ∧
      bytewise.sort (textLines newline s.processes.output) =
        [text "a:1:w", text "a:1:w", text "b:2:w", text "b:2:w"] := by
  obtain ⟨later, t, hfresh, hrun, hquiet⟩ := System.quiet_two
  refine ⟨later, t, hrun, ?_⟩
  rw [sorted_output System.smallHost System.inputFile System.twoCalls (fun _ => 0) System.setup_two
    plain_two later hfresh t hrun hquiet bytewise]
  have hfound : ((searches System.inputFile (System.twoCalls.map Prod.fst)).flatMap
      (grep System.inputFile)).Perm [text "a:1:w", text "a:1:w", text "b:2:w", text "b:2:w"] := by
    decide
  rw [bytewise.sort_eq_of_perm hfound]
  exact List.mergeSort_of_pairwise (by decide)

end Cse420.Server.SortedOutput
