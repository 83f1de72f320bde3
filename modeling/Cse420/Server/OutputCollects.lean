import Cse420.Server.OutputWorkers

/-!
The children and the server keep the invariant as long as the path of every file
fits the block `openDir` allocates for it. From this follows what `output.txt`
holds when all children have exited.
-/

namespace Cse420.Server.Output

open CMemory Lister Machine SysVSem
open Queue (Item)

variable {κ : Type} {ids : Ids κ} {fs : FileSystem} {requests : List Item}

section Children

variable {s : State κ} {i : Nat} {c next : Child κ}

/-- A child moves and starts at most one thread. -/
theorem good_child (h : Good ids fs requests s) (hi : s.children[i]? = some c)
    (new : List Worker) (hnew : ∀ w ∈ new, w.pc = .searchTest)
    (hworkers : next.workers = c.workers ++ new) (hcur : next.curItem = c.curItem)
    (hserves : Child.Serves fs next) {after : κ → Nat}
    (hvalue : after ids.SEMbuf = s.semval ids.SEMbuf)
    (hadj : next.semadj ids.SEMbuf = c.semadj ids.SEMbuf) :
    Good ids fs requests { s with semval := after, children := s.children.set i next } := by
  obtain ⟨before, behind, hsplit, hset⟩ := set_split hi
  have hholds : new.countP Worker.holds = 0 := by
    apply List.countP_eq_zero.mpr
    intro w hw
    simp [Worker.holds, hnew w hw]
  have hwritten : new.flatMap Worker.written = [] := by
    rw [List.flatMap_eq_nil_iff]
    intro w hw
    simp [Worker.written, hnew w hw]
  have hresults : new.flatMap (Worker.results fs) = [] := by
    rw [List.flatMap_eq_nil_iff]
    intro w hw
    simp [Worker.results, hnew w hw]
  have hold : allWorkers s.children =
      (allWorkers before ++ c.workers) ++ allWorkers behind := by
    simp [allWorkers, hsplit]
  have hall : allWorkers (s.children.set i next) =
      (allWorkers before ++ c.workers) ++ (new ++ allWorkers behind) := by
    simp [allWorkers, hset, hworkers]
  constructor
  · exact h.safe
  · have hitems : (s.children.set i next).map Child.curItem = s.children.map Child.curItem :=
      map_set_same hi Child.curItem hcur
    rw [← h.items, ← hitems]
  · intro d hd
    rcases List.mem_or_eq_of_mem_set hd with hd | rfl
    · exact h.serves d hd
    · exact hserves
  · intro w hw
    have hsound := h.sound
    rw [hold] at hsound
    rw [hall] at hw
    rcases List.mem_append.mp hw with hw | hw
    · exact hsound w (List.mem_append_left _ hw)
    · rcases List.mem_append.mp hw with hw | hw
      · simp [Worker.Sound, hnew w hw]
      · exact hsound w (List.mem_append_right _ hw)
  · constructor
    · have hone := h.locked.value
      show after ids.SEMbuf + (allWorkers (s.children.set i next)).countP Worker.holds = 1
      rw [hold] at hone
      rw [hvalue, hall]
      simp only [List.countP_append, hholds] at hone ⊢
      omega
    · intro d hd
      rcases List.mem_or_eq_of_mem_set hd with hd | rfl
      · exact h.locked.adj d hd
      · rw [hadj, hworkers, List.countP_append, hholds, h.locked.adj c (List.mem_of_getElem? hi)]
        rfl
  · obtain ⟨finished, haccounted⟩ := h.accounted
    rw [hold] at haccounted
    refine ⟨finished, ?_, ?_⟩
    · simpa [hall, hresults] using haccounted.perm
    · simpa [hall, hwritten] using haccounted.output

/-- The same for a child that starts no thread. -/
theorem good_child_same (h : Good ids fs requests s) (hi : s.children[i]? = some c)
    (hworkers : next.workers = c.workers) (hcur : next.curItem = c.curItem)
    (hserves : Child.Serves fs next) {after : κ → Nat}
    (hvalue : after ids.SEMbuf = s.semval ids.SEMbuf)
    (hadj : next.semadj ids.SEMbuf = c.semadj ids.SEMbuf) :
    Good ids fs requests { s with semval := after, children := s.children.set i next } := by
  apply good_child h hi [] _ _ hcur hserves hvalue hadj
  · simp
  · rw [hworkers, List.append_nil]

/-- A child whose threads are through gives nothing back at its end. -/
theorem good_childExit (h : Good ids fs requests s) (hi : s.children[i]? = some c)
    (hworkers : c.workers.map Worker.item = files fs c.curItem)
    (hexited : ∀ w ∈ c.workers, w.pc = .exited) : Good ids fs requests (childExit s i c) := by
  have hadj : c.semadj ids.SEMbuf = 0 := by
    rw [h.locked.adj c (List.mem_of_getElem? hi), List.countP_eq_zero.mpr]
    · rfl
    · intro w hw
      simp [Worker.holds, hexited w hw]
  apply good_child_same h hi
  · rfl
  · rfl
  · exact ⟨hworkers, hexited⟩
  · exact undo_zero hadj
  · exact hadj.symm

theorem itemFiles_cons (item : Item) (entry : Dirent) (rest : List Dirent) :
    itemFiles item (entry :: rest) =
      (if Dirent.works entry then [⟨join item.dirpath entry.dName, item.keyword⟩] else []) ++
        itemFiles item rest := by
  unfold itemFiles
  rw [List.filter_cons]
  split <;> rfl

/-- One turn of the loop of `openDir`, if the files of the directory are not too
many and their paths not too long. -/
theorem good_readdir [DecidableEq κ] {t : State κ} {entry : Dirent} {rest : List Dirent}
    (h : Good ids fs requests s) (hi : s.children[i]? = some c)
    (hpc : c.pc = .readdir (entry :: rest))
    (hmany : (files fs c.curItem).length ≤ MAXTHREADS)
    (hfit : ∀ file ∈ files fs c.curItem, file.dirpath.length + 1 ≤ MAXDIRPATH)
    (hstep : childStep ids fs s i c .readdir = some t) : Good ids fs requests t := by
  have hserves := h.serves c (List.mem_of_getElem? hi)
  rw [Child.Serves, hpc] at hserves
  simp only [itemFiles_cons] at hserves
  simp only [childStep, hpc, readdirStep] at hstep
  by_cases hworks : Dirent.works entry
  · rw [if_pos hworks] at hserves
    have hroom : (join c.curItem.dirpath entry.dName).length + 1 ≤ MAXDIRPATH ∧
        c.workers.length < MAXTHREADS := by
      constructor
      · apply hfit ⟨join c.curItem.dirpath entry.dName, c.curItem.keyword⟩
        rw [← hserves]
        simp
      · rw [← hserves] at hmany
        simp only [List.length_append, List.length_map, List.length_singleton] at hmany
        omega
    rw [if_pos hworks, if_pos hroom] at hstep
    cases hstep
    apply good_child h hi
      [⟨⟨join c.curItem.dirpath entry.dName, c.curItem.keyword⟩, .searchTest⟩]
    · simp
    · rfl
    · rfl
    · simpa [Child.Serves] using hserves
    · rfl
    · rfl
  · rw [if_neg hworks] at hserves hstep
    cases hstep
    apply good_child_same h hi
    · rfl
    · rfl
    · simpa [Child.Serves] using hserves
    · rfl
    · rfl

theorem good_childStep [DecidableEq κ] {t : State κ} {event : ChildEvent}
    (h : Good ids fs requests s) (hi : s.children[i]? = some c)
    (hmany : (files fs c.curItem).length ≤ MAXTHREADS)
    (hfit : ∀ file ∈ files fs c.curItem, file.dirpath.length + 1 ≤ MAXDIRPATH)
    (hstep : childStep ids fs s i c event = some t) : Good ids fs requests t := by
  have hserves := h.serves c (List.mem_of_getElem? hi)
  cases event with
  | waits =>
      simp only [childStep, Option.ite_none_right_eq_some, Option.map_eq_some_iff] at hstep
      obtain ⟨hpc, after, hwaits, rfl⟩ := hstep
      obtain ⟨hvalue, hadj⟩ := waits_frame hwaits (ids.apart c.curItem.dirpath).symm
      rw [Child.Serves, hpc] at hserves
      apply good_child_same h hi
      · rfl
      · rfl
      · exact hserves
      · exact hvalue
      · exact hadj
  | opendir =>
      simp only [childStep, Option.ite_none_right_eq_some] at hstep
      obtain ⟨hpc, hopened⟩ := hstep
      rw [Child.Serves, hpc] at hserves
      simp only at hserves
      cases hopendir : fs.opendir c.curItem.dirpath with
      | none =>
          rw [hopendir] at hopened
          cases hopened
          apply good_childExit h hi
          · simp [hserves, files, hopendir, itemFiles]
          · simp [hserves]
      | some entries =>
          rw [hopendir] at hopened
          cases hopened
          apply good_child_same h hi
          · rfl
          · rfl
          · simp [Child.Serves, hserves, files, hopendir]
          · rfl
          · rfl
  | readdir =>
      cases hpc : c.pc with
      | readdir rest =>
          cases rest with
          | nil =>
              simp only [childStep, hpc, Option.some.injEq] at hstep
              subst hstep
              rw [Child.Serves, hpc] at hserves
              apply good_child_same h hi
              · rfl
              · rfl
              · simpa [Child.Serves, itemFiles] using hserves
              · rfl
              · rfl
          | cons entry rest => exact good_readdir h hi hpc hmany hfit hstep
      | _ => simp [childStep, hpc] at hstep
  | signals =>
      simp only [childStep, Option.ite_none_right_eq_some, Option.some.injEq] at hstep
      obtain ⟨hpc, rfl⟩ := hstep
      obtain ⟨hvalue, hadj⟩ :=
        signals_frame s.semval c.semadj (ids.apart c.curItem.dirpath).symm
      rw [Child.Serves, hpc] at hserves
      apply good_child_same h hi
      · rfl
      · rfl
      · exact hserves
      · exact hvalue
      · exact hadj
  | exit =>
      simp only [childStep, Option.ite_none_right_eq_some, Option.some.injEq] at hstep
      obtain ⟨⟨hpc, hexited⟩, rfl⟩ := hstep
      rw [Child.Serves, hpc] at hserves
      exact good_childExit h hi hserves hexited

end Children

section Finished

/-- In the end every file has been searched by a thread, and every thread is
through. -/
theorem good_finished {s : State κ} (h : Good ids fs requests s) (hfinished : Finished s) :
    ∃ results : List (List UInt8), results.Perm (expected fs requests) ∧
      s.output = results.flatten := by
  obtain ⟨hrequests, hcur, hexited⟩ := hfinished
  obtain ⟨finished, haccounted⟩ := h.accounted
  have hserves : ∀ c ∈ s.children, c.workers.map Worker.item = files fs c.curItem ∧
      ∀ w ∈ c.workers, w.pc = .exited := by
    intro c hc
    have hchild := h.serves c hc
    rw [Child.Serves, hexited c hc] at hchild
    exact hchild
  have hdone : ∀ w ∈ allWorkers s.children, w.pc = .exited := by
    intro w hw
    obtain ⟨c, hc, hw⟩ := List.mem_flatMap.mp hw
    exact (hserves c hc).2 w hw
  have hitems : (allWorkers s.children).map Worker.item = requests.flatMap (files fs) := by
    have hold := h.items
    rw [hrequests, hcur] at hold
    rw [← hold]
    simp only [allWorkers, List.map_flatMap, Option.toList_none, List.append_nil,
      List.flatMap_map]
    exact List.flatMap_congr fun c hc => (hserves c hc).1
  have hresults : (allWorkers s.children).flatMap (Worker.results fs) = expected fs requests := by
    rw [expected, ← hitems, List.filterMap_map, List.filterMap_eq_flatMap_toList]
    apply List.flatMap_congr
    intro w hw
    simp [Worker.results, hdone w hw]
  have hwritten : (allWorkers s.children).flatMap Worker.written = [] := by
    rw [List.flatMap_eq_nil_iff]
    intro w hw
    simp [Worker.written, hdone w hw]
  refine ⟨finished, hresults ▸ haccounted.perm, ?_⟩
  rw [haccounted.output, hwritten, List.append_nil]

end Finished

section Server

variable [DecidableEq κ] {s next : State κ}

theorem good_dequeueItem (h : Good ids fs requests s)
    (hstep : step ids fs s .dequeueItem = some next) : Good ids fs requests next := by
  rw [step, if_neg (by simp [h.safe])] at hstep
  split at hstep
  case h_2 => cases hstep
  case h_1 item rest hrequests hcur =>
    cases hstep
    have hne := (ids.apart item.dirpath).symm
    let clear (c : Child κ) : Child κ :=
      { c with semadj := Function.update c.semadj (ids.SEMfr item.dirpath) 0 }
    have hall : allWorkers (s.children.map clear) = allWorkers s.children := by
      simp only [allWorkers, List.flatMap_map]
      rfl
    have hitems : (s.children.map clear).map Child.curItem = s.children.map Child.curItem := by
      simp only [List.map_map]
      rfl
    constructor
    · exact h.safe
    · have hold := h.items
      rw [hrequests, hcur] at hold
      rw [← hold, ← hitems]
      rfl
    · intro c hc
      obtain ⟨d, hd, rfl⟩ := List.mem_map.mp hc
      exact h.serves d hd
    · intro w hw
      exact h.sound w (hall ▸ hw)
    · constructor
      · rw [← h.locked.value, ← hall]
        congr 1
        exact Function.update_of_ne hne ..
      · intro c hc
        obtain ⟨d, hd, rfl⟩ := List.mem_map.mp hc
        rw [← h.locked.adj d hd]
        exact Function.update_of_ne hne ..
    · obtain ⟨finished, haccounted⟩ := h.accounted
      rw [← hall] at haccounted
      exact ⟨finished, haccounted⟩

theorem good_fork (h : Good ids fs requests s) (hstep : step ids fs s .fork = some next) :
    Good ids fs requests next := by
  rw [step, if_neg (by simp [h.safe])] at hstep
  obtain ⟨item, hcur, rfl⟩ := Option.map_eq_some_iff.mp hstep
  let child : Child κ := ⟨item, .waits, [], fun _ => 0⟩
  have hall : allWorkers (s.children ++ [child]) = allWorkers s.children := by
    simp [allWorkers, child]
  constructor
  · exact h.safe
  · rw [← h.items, hcur]
    simp
  · rw [List.forall_mem_append, List.forall_mem_singleton]
    exact ⟨h.serves, rfl⟩
  · intro w hw
    exact h.sound w (hall ▸ hw)
  · constructor
    · rw [← h.locked.value, ← hall]
    · rw [List.forall_mem_append, List.forall_mem_singleton]
      exact ⟨h.locked.adj, rfl⟩
  · obtain ⟨finished, haccounted⟩ := h.accounted
    rw [← hall] at haccounted
    exact ⟨finished, haccounted⟩

/-- Every step keeps the invariant if the directories are small enough. -/
theorem good_step (hmany : ∀ item ∈ requests, (files fs item).length ≤ MAXTHREADS)
    (hfit : PathsFit fs requests) (s : State κ) (event : Event) (next : State κ)
    (h : Good ids fs requests s) (hstep : step ids fs s event = some next) :
    Good ids fs requests next := by
  cases event with
  | dequeueItem => exact good_dequeueItem h hstep
  | fork => exact good_fork h hstep
  | child i event =>
      rw [step, if_neg (by simp [h.safe])] at hstep
      obtain ⟨c, hi, hchild⟩ := Option.bind_eq_some_iff.mp hstep
      have hitem : c.curItem ∈ requests := by
        rw [← h.items]
        apply List.mem_append_left
        exact List.mem_map.mpr ⟨c, List.mem_of_getElem? hi, rfl⟩
      exact good_childStep h hi (hmany _ hitem) (hfit _ hitem) hchild
  | worker i j event =>
      rw [step, if_neg (by simp [h.safe])] at hstep
      obtain ⟨c, hi, hrest⟩ := Option.bind_eq_some_iff.mp hstep
      obtain ⟨w, hj, hworker⟩ := Option.bind_eq_some_iff.mp hrest
      exact good_worker h hi hj hworker

theorem good_start (ids : Ids κ) (fs : FileSystem) (requests : List Item) (semval : κ → Nat) :
    Good ids fs requests (start ids requests semval) where
  safe := rfl
  items := rfl
  serves := by simp [start]
  sound := by simp [start, allWorkers]
  locked := ⟨by simp [start, allWorkers], by simp [start]⟩
  accounted := ⟨[], by simp [start, allWorkers], by simp [start, allWorkers]⟩

end Server

section Long

variable [DecidableEq κ]

/-- A child that has a file with a long path before it overruns the block at this
file or earlier. -/
theorem readdir_overruns {s : State κ} {i : Nat} {c : Child κ} {rest : List Dirent}
    (hsafe : s.overrun = false) (hi : s.children[i]? = some c) (hpc : c.pc = .readdir rest)
    (hlong : ∃ file ∈ itemFiles c.curItem rest, MAXDIRPATH < file.dirpath.length + 1) :
    ∃ schedule t, run (step ids fs) s schedule = some t ∧ t.overrun = true := by
  induction rest generalizing s c with
  | nil =>
      obtain ⟨file, hfile, -⟩ := hlong
      cases hfile
  | cons entry rest ih =>
      cases hread : readdirStep c entry rest with
      | none =>
          refine ⟨[.child i .readdir], { s with overrun := true }, ?_, rfl⟩
          simp [run, step, hsafe, hi, childStep, hpc, hread]
      | some moved =>
          have hstep : step ids fs s (.child i .readdir) =
              some { s with children := s.children.set i moved } := by
            simp [step, hsafe, hi, childStep, hpc, hread]
          have hmoved : moved.pc = .readdir rest ∧ moved.curItem = c.curItem ∧
              ∃ file ∈ itemFiles c.curItem rest, MAXDIRPATH < file.dirpath.length + 1 := by
            obtain ⟨file, hfile, hlength⟩ := hlong
            rw [itemFiles_cons] at hfile
            simp only [readdirStep] at hread
            split at hread
            case isTrue hworks =>
              rw [if_pos hworks] at hfile
              simp only [Option.ite_none_right_eq_some, Option.some.injEq] at hread
              obtain ⟨⟨hshort, -⟩, rfl⟩ := hread
              rcases List.mem_append.mp hfile with hfile | hfile
              · rw [List.mem_singleton.mp hfile] at hlength
                simp only at hlength
                omega
              · exact ⟨rfl, rfl, file, hfile, hlength⟩
            case isFalse hworks =>
              rw [if_neg hworks] at hfile
              cases hread
              exact ⟨rfl, rfl, file, hfile, hlength⟩
          obtain ⟨hpc', hcur, hrest⟩ := hmoved
          have hlt := (List.getElem?_eq_some_iff.mp hi).1
          obtain ⟨schedule, t, hrun, hover⟩ :=
            ih (s := { s with children := s.children.set i moved }) hsafe
              (List.getElem?_set_self hlt) hpc' (hcur ▸ hrest)
          refine ⟨.child i .readdir :: schedule, t, ?_, hover⟩
          rw [run, hstep]
          exact hrun

/-- The server comes to any of its requests. -/
theorem reaches_request (ids : Ids κ) (fs : FileSystem) (before : List Item) {item : Item}
    {behind : List Item} {s : State κ}
    (hsafe : s.overrun = false) (hcur : s.curItem = none)
    (hrequests : s.requests = before ++ item :: behind) :
    ∃ schedule t, run (step ids fs) s schedule = some t ∧ t.overrun = false ∧
      t.curItem = none ∧ t.requests = item :: behind := by
  induction before generalizing s with
  | nil => exact ⟨[], s, rfl, hsafe, hcur, hrequests⟩
  | cons first before ih =>
      have htwo : ∃ t, run (step ids fs) s [.dequeueItem, .fork] = some t ∧ t.overrun = false ∧
          t.curItem = none ∧ t.requests = before ++ item :: behind := by
        simp [run, step, hsafe, hcur, hrequests, semIni]
      obtain ⟨next, hnext, hsafe', hcur', hrequests'⟩ := htwo
      obtain ⟨schedule, t, hrun, hrest⟩ := ih hsafe' hcur' hrequests'
      refine ⟨[.dequeueItem, .fork] ++ schedule, t, ?_, hrest⟩
      rw [run_append, hnext]
      exact hrun

/-- The child of a request begins to read its directory. -/
theorem reaches_readdir {item : Item} {behind : List Item} {entries : List Dirent} {s : State κ}
    (hsafe : s.overrun = false) (hcur : s.curItem = none) (hrequests : s.requests = item :: behind)
    (hopen : fs.opendir item.dirpath = some entries) :
    ∃ schedule t c, run (step ids fs) s schedule = some t ∧ t.overrun = false ∧
      t.children[s.children.length]? = some c ∧ c.curItem = item ∧ c.pc = .readdir entries := by
  refine ⟨[.dequeueItem, .fork, .child s.children.length .waits,
    .child s.children.length .opendir], ?_⟩
  simp [run, step, hsafe, hcur, hrequests, semIni, childStep, SysVSem.waits, hopen]

/-- A path that does not fit is reached by some schedule. -/
theorem overruns_of_long (ids : Ids κ) {requests : List Item} (semval : κ → Nat)
    (hlong : ¬ PathsFit fs requests) :
    ∃ schedule t, run (step ids fs) (start ids requests semval) schedule = some t ∧
      t.overrun = true := by
  simp only [PathsFit, not_forall, not_le] at hlong
  obtain ⟨item, hitem, file, hfile, hlength⟩ := hlong
  obtain ⟨before, behind, rfl⟩ := List.append_of_mem hitem
  cases hopen : fs.opendir item.dirpath with
  | none => simp [files, hopen, itemFiles] at hfile
  | some entries =>
      rw [files, hopen, Option.getD_some] at hfile
      obtain ⟨first, s, hfirst, hsafe, hcur, hrequests⟩ := reaches_request ids fs before
        (s := start ids (before ++ item :: behind) semval) rfl rfl rfl
      obtain ⟨second, t, c, hsecond, hsafe', hi, hitem, hpc⟩ :=
        reaches_readdir hsafe hcur hrequests hopen
      obtain ⟨third, last, hthird, hover⟩ := readdir_overruns hsafe' hi hpc
        ⟨file, hitem ▸ hfile, hlength⟩
      refine ⟨first ++ (second ++ third), last, ?_, hover⟩
      rw [run_append, hfirst, Option.bind_some, run_append, hsecond, Option.bind_some, hthird]

end Long

/-- Under every schedule `output.txt` ends up with one result for each request and
readable file of its directory, whole and in some order, exactly if the paths of
the files fit the block `openDir` allocates for them. -/
theorem output_collects_iff [DecidableEq κ] (ids : Ids κ) (fs : FileSystem)
    (requests : List Item) (semval : κ → Nat)
    (hmany : ∀ item ∈ requests, (files fs item).length ≤ MAXTHREADS) :
    Collects ids fs requests semval ↔ PathsFit fs requests := by
  constructor
  · intro h
    by_contra hlong
    obtain ⟨schedule, t, hrun, hover⟩ := overruns_of_long ids semval hlong
    rw [(h schedule t hrun).1] at hover
    cases hover
  · intro hfit schedule t hrun
    have hgood := run_invariant (Good ids fs requests) (good_step hmany hfit)
      (good_start ids fs requests semval) hrun
    exact ⟨hgood.safe, good_finished hgood⟩

/-- `SEMbuf` is the first semaphore, and there is one more for each length of a
directory's path. -/
def fewIds : Ids Nat where
  SEMbuf := 0
  SEMfr dirpath := dirpath.length + 1
  apart := by
    intro dirpath
    omega

/-- `/d` with two files and a directory. -/
def twoFiles : FileSystem where
  opendir path :=
    if path = text "/d" then some [⟨text "a", 8⟩, ⟨text "sub", 4⟩, ⟨text "b", 8⟩] else none
  fopen path :=
    if path = text "/d/a" then some (text "w\n")
    else if path = text "/d/b" then some (text "x\nw\n") else none

/-- Both threads search before either of them writes. -/
def twoWriters : List Event :=
  [.dequeueItem, .fork, .child 0 .waits, .child 0 .opendir, .child 0 .readdir,
    .worker 0 0 .searchTest, .child 0 .readdir, .child 0 .readdir, .worker 0 1 .searchTest,
    .worker 0 1 .waits, .worker 0 1 (.write 2), .child 0 .readdir, .child 0 .signals,
    .worker 0 1 (.write 4), .worker 0 1 .signals, .worker 0 0 .waits, .worker 0 0 (.write 6),
    .worker 0 0 .signals, .child 0 .exit]

/-- One request for this directory: all schedules are covered, and there is one
that comes to its end. -/
theorem output_collects_two :
    Collects fewIds twoFiles [⟨text "/d", text "w"⟩] (fun _ => 0) ∧
      (run (step fewIds twoFiles) (start fewIds [⟨text "/d", text "w"⟩] fun _ => 0)
        twoWriters).map State.output = some (text "b:2:w\na:1:w\n") := by
  constructor
  · apply (output_collects_iff fewIds twoFiles [⟨text "/d", text "w"⟩] (fun _ => 0) ?_).mpr
    · unfold PathsFit
      decide
    · decide
  · decide

/-- A directory four levels deep with long names, as a client can ask for. -/
def deepDir : List UInt8 := (List.replicate 4 (slash :: List.replicate 250 'd'.toUInt8)).flatten

def deepName : List UInt8 := List.replicate 40 'f'.toUInt8

/-- It holds one file. -/
def deepFile : FileSystem where
  opendir path := if path = deepDir then some [⟨deepName, 8⟩] else none
  fopen path := if path = join deepDir deepName then some [] else none

/-- The path of the only file of a directory is longer than its block. -/
theorem output_overruns :
    (∀ item ∈ [Item.mk deepDir (text "w")], (files deepFile item).length ≤ MAXTHREADS) ∧
      ¬ Collects fewIds deepFile [⟨deepDir, text "w"⟩] (fun _ => 0) := by
  have hopen : deepFile.opendir deepDir = some [⟨deepName, 8⟩] := by
    simp only [deepFile, if_true]
  have hworks : Dirent.works ⟨deepName, 8⟩ = true := by decide
  have hfiles : files deepFile ⟨deepDir, text "w"⟩ = [⟨join deepDir deepName, text "w"⟩] := by
    rw [files, hopen, Option.getD_some, itemFiles, List.filter_cons_of_pos hworks]
    rfl
  constructor
  · intro item hitem
    rw [List.mem_singleton.mp hitem, hfiles]
    decide
  · intro h
    have hdir : deepDir.length = 1004 := by
      rw [deepDir, List.length_flatten, List.map_replicate, List.sum_replicate, List.length_cons,
        List.length_replicate]
      rfl
    have hlong : ¬ PathsFit deepFile [⟨deepDir, text "w"⟩] := by
      intro hfit
      have hlength := hfit _ (List.mem_singleton.mpr rfl) _ (hfiles ▸ List.mem_singleton.mpr rfl)
      rw [join, List.length_append, List.length_cons, hdir, deepName, List.length_replicate]
        at hlength
      exact absurd hlength (by decide)
    obtain ⟨schedule, t, hrun, hover⟩ := overruns_of_long fewIds (fun _ => 0) hlong
    rw [(h schedule t hrun).1] at hover
    cases hover

end Cse420.Server.Output
