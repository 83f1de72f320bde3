import Cse420.Server.OutputCollects

/-!
A child and its threads. `openDir` starts a thread for each file and keeps its id
in the global array `tids`, and `joinThreads` waits for the ids it finds there. The
array has room for twenty ids and nothing limits the number of files. Semaphores
are left out here: a thread writes its result in one piece.
-/

namespace Cse420.Server.JoinThreads

open CMemory Lister Machine
open Queue (Item)
open Output (files itemFiles result MAXDIRPATH MAXTHREADS)

def MAXOUTSIZE : Nat := 2048

inductive WorkerPc where
  | searchTest
  /-- In `fileWriter`, with the result. -/
  | fileWriter (result : List UInt8)
  | exited
  deriving DecidableEq

structure Worker where
  item : Item
  pc : WorkerPc

inductive Pc where
  | opendir
  /-- In the loop of `openDir`, with the entries it has not seen yet. -/
  | readdir (rest : List Dirent)
  /-- In the loop of `joinThreads`. -/
  | joinThreads (i : Nat)
  | exited
  deriving DecidableEq

/-- The child with its globals and its threads, in the order in which they were
created; the place in this order is the thread's id. `joined` and `written` are
what has been waited for and what has been written so far, and `overrun` stands
for a store behind the end of a block. -/
structure State where
  pc : Pc
  tids : List (Option Nat)
  threadCount : Nat
  workers : List Worker
  joined : List Nat
  written : List (List UInt8)
  overrun : Bool

inductive Event where
  | opendir
  | readdir
  | join
  | exit
  | searchTest (tid : Nat)
  | fileWriter (tid : Nat)

/-- `ChildsPlay` at its start. -/
def start : State := ⟨.opendir, List.replicate MAXTHREADS none, 0, [], [], [], false⟩

/-- `tids[threadCount] = tid; threadCount++;`. -/
def storeTid (tid : Nat) (s : State) : State :=
  if s.threadCount < s.tids.length then
    { s with tids := s.tids.set s.threadCount (some tid), threadCount := s.threadCount + 1 }
  else { s with overrun := true }

/-- The loop of `openDir` at one entry. `pthread_create` is taken to succeed. -/
def openDirLoop (item : Item) (entry : Dirent) (rest : List Dirent) (s : State) : State :=
  if Output.Dirent.works entry then
    let abspath := Lister.join item.dirpath entry.dName
    if abspath.length + 1 ≤ MAXDIRPATH then
      storeTid s.workers.length { s with
        pc := .readdir rest
        workers := s.workers ++ [⟨⟨abspath, item.keyword⟩, .searchTest⟩] }
    else { s with overrun := true }
  else { s with pc := .readdir rest }

/-- The thread at its next place. -/
def setWorker (tid : Nat) (w : Worker) (s : State) : State :=
  { s with workers := s.workers.set tid w }

/-- `search_test` of a thread, whose `result` has `100 * MAXOUTSIZE` bytes. -/
def searchStep (fs : FileSystem) (tid : Nat) (w : Worker) (s : State) : State :=
  match SearchTest.searchTest fs w.item.dirpath w.item.keyword with
  | none => { s with overrun := true }
  | some none => setWorker tid { w with pc := .exited } s
  | some (some result) =>
      if result.length + 1 ≤ 100 * MAXOUTSIZE then
        setWorker tid { w with pc := .fileWriter result } s
      else { s with overrun := true }

/-- One step of the child or of a thread, until the child exits. -/
def step (fs : FileSystem) (item : Item) (s : State) (event : Event) : Option State :=
  if s.overrun ∨ s.pc = .exited then none
  else
    match event, s.pc with
    | .opendir, .opendir =>
        match fs.opendir item.dirpath with
        | none => some { s with pc := .exited }
        | some entries => some { s with pc := .readdir entries }
    | .readdir, .readdir [] => some { s with pc := .joinThreads 0 }
    | .readdir, .readdir (entry :: rest) => some (openDirLoop item entry rest s)
    | .join, .joinThreads i =>
        if i < s.threadCount then do
          let tid ← (s.tids[i]?).join
          let w ← s.workers[tid]?
          if w.pc = .exited then
            some { s with pc := .joinThreads (i + 1), joined := s.joined ++ [tid] }
          else none
        else none
    | .exit, .joinThreads i => if s.threadCount ≤ i then some { s with pc := .exited } else none
    | .searchTest tid, _ => do
        let w ← s.workers[tid]?
        if w.pc = .searchTest then some (searchStep fs tid w s) else none
    | .fileWriter tid, _ => do
        let w ← s.workers[tid]?
        match w.pc with
        | .fileWriter result =>
            some { setWorker tid { w with pc := .exited } s with
              written := s.written ++ [result] }
        | _ => none
    | _, _ => none

/-- Every id goes into a slot of `tids`, and the child exits after all its threads,
so that the result of every readable file has been written. -/
def WaitsForAll (fs : FileSystem) (item : Item) : Prop :=
  ∀ schedule t, run (step fs item) start schedule = some t →
    t.overrun = false ∧
      (t.pc = .exited → (∀ tid < t.workers.length, tid ∈ t.joined) ∧
        t.written.Perm ((files fs item).filterMap (result fs)))

/-- The files of the directory are not too many, and their paths and results fit
the blocks that are allocated for them. -/
structure Fits (fs : FileSystem) (item : Item) : Prop where
  count : (files fs item).length ≤ MAXTHREADS
  paths : ∀ file ∈ files fs item, file.dirpath.length + 1 ≤ MAXDIRPATH
  results : ∀ file ∈ files fs item, ∀ out, result fs file = some out →
    out.length + 1 ≤ 100 * MAXOUTSIZE

variable {fs : FileSystem} {item : Item}

section Steps

variable {s : State} (hsafe : s.overrun = false)

include hsafe

theorem step_opendir (hpc : s.pc = .opendir) : step fs item s .opendir =
    some { s with pc := ((fs.opendir item.dirpath).map Pc.readdir).getD .exited } := by
  unfold step
  rw [if_neg (by simp [hsafe, hpc])]
  simp only [hpc]
  cases fs.opendir item.dirpath <;> rfl

theorem step_readdir_nil (hpc : s.pc = .readdir []) :
    step fs item s .readdir = some { s with pc := .joinThreads 0 } := by
  unfold step
  rw [if_neg (by simp [hsafe, hpc])]
  simp only [hpc]

theorem step_readdir_cons {entry : Dirent} {rest : List Dirent}
    (hpc : s.pc = .readdir (entry :: rest)) :
    step fs item s .readdir = some (openDirLoop item entry rest s) := by
  unfold step
  rw [if_neg (by simp [hsafe, hpc])]
  simp only [hpc]

theorem step_join {i : Nat} (hpc : s.pc = .joinThreads i) {t : State}
    (hstep : step fs item s .join = some t) :
    i < s.threadCount ∧ ∃ tid w, s.tids[i]? = some (some tid) ∧ s.workers[tid]? = some w ∧
      w.pc = .exited ∧ t = { s with pc := .joinThreads (i + 1), joined := s.joined ++ [tid] } := by
  unfold step at hstep
  rw [if_neg (by simp [hsafe, hpc])] at hstep
  simp only [hpc, Option.ite_none_right_eq_some] at hstep
  obtain ⟨hlt, hstep⟩ := hstep
  obtain ⟨tid, htid, hstep⟩ := Option.bind_eq_some_iff.mp hstep
  obtain ⟨w, hw, hstep⟩ := Option.bind_eq_some_iff.mp hstep
  simp only [Option.ite_none_right_eq_some, Option.some.injEq] at hstep
  exact ⟨hlt, tid, w, Option.join_eq_some_iff.mp htid, hw, hstep.1, hstep.2.symm⟩

theorem step_exit {i : Nat} (hpc : s.pc = .joinThreads i) {t : State}
    (hstep : step fs item s .exit = some t) :
    s.threadCount ≤ i ∧ t = { s with pc := .exited } := by
  unfold step at hstep
  rw [if_neg (by simp [hsafe, hpc])] at hstep
  simp only [hpc, Option.ite_none_right_eq_some, Option.some.injEq] at hstep
  exact ⟨hstep.1, hstep.2.symm⟩

end Steps

section Invariant

/-- What a thread has written in the end. -/
def Worker.results (fs : FileSystem) (w : Worker) : List (List UInt8) :=
  match w.pc with
  | .exited => (result fs w.item).toList
  | _ => []

/-- A thread writes the result of its own file. -/
def Worker.Sound (fs : FileSystem) (w : Worker) : Prop :=
  match w.pc with
  | .fileWriter out => result fs w.item = some out
  | _ => True

/-- What has happened when the child is at this place. -/
def Stage (fs : FileSystem) (item : Item) (workers : List Worker) (joined : List Nat) :
    Pc → Prop
  | .opendir => workers = [] ∧ joined = []
  | .readdir rest =>
      workers.map Worker.item ++ itemFiles item rest = files fs item ∧ joined = []
  | .joinThreads i =>
      workers.map Worker.item = files fs item ∧ joined = List.range i ∧ i ≤ workers.length ∧
        ∀ tid < i, ∀ w, workers[tid]? = some w → w.pc = .exited
  | .exited =>
      workers.map Worker.item = files fs item ∧ joined = List.range workers.length ∧
        ∀ w ∈ workers, w.pc = .exited

/-- The invariant. -/
structure Good (fs : FileSystem) (item : Item) (s : State) : Prop where
  safe : s.overrun = false
  room : s.tids.length = MAXTHREADS
  count : s.threadCount = s.workers.length
  slots : ∀ tid < s.workers.length, s.tids[tid]? = some (some tid)
  stage : Stage fs item s.workers s.joined s.pc
  sound : ∀ w ∈ s.workers, w.Sound fs
  written : s.written.Perm (s.workers.flatMap (Worker.results fs))

theorem good_start (fs : FileSystem) (item : Item) : Good fs item start where
  safe := rfl
  room := List.length_replicate
  count := rfl
  slots := by simp [start]
  stage := ⟨rfl, rfl⟩
  sound := by simp [start]
  written := List.Perm.refl _

theorem Good.stage_at {s : State} {pc : Pc} (h : Good fs item s) (hpc : s.pc = pc) :
    Stage fs item s.workers s.joined pc := hpc ▸ h.stage

section Worker

variable {s : State} {tid : Nat} {w moved : Worker}

/-- A thread that is still running moves. -/
theorem stage_move {workers : List Worker} {joined : List Nat} {pc : Pc}
    (h : Stage fs item workers joined pc) (hw : workers[tid]? = some w)
    (hrunning : w.pc ≠ .exited) (hitem : moved.item = w.item) :
    Stage fs item (workers.set tid moved) joined pc := by
  have hmap : (workers.set tid moved).map Worker.item = workers.map Worker.item :=
    map_set_same hw Worker.item hitem
  have hmem := List.mem_of_getElem? hw
  cases pc with
  | opendir =>
      rw [h.1] at hmem
      cases hmem
  | readdir rest =>
      unfold Stage at h ⊢
      rw [hmap]
      exact h
  | joinThreads i =>
      obtain ⟨hitems, hjoined, hle, hexited⟩ := h
      refine ⟨hmap.trans hitems, hjoined, by rw [List.length_set]; exact hle, ?_⟩
      intro other hother v hv
      have hne : tid ≠ other := by
        rintro rfl
        exact hrunning (hexited tid hother w hw)
      rw [List.getElem?_set_ne hne] at hv
      exact hexited other hother v hv
  | exited => exact absurd (h.2.2 w hmem) hrunning

theorem good_move (h : Good fs item s) (hw : s.workers[tid]? = some w)
    (hrunning : w.pc ≠ .exited) (moved : Worker) (hitem : moved.item = w.item)
    (hsound : moved.Sound fs) (written : List (List UInt8))
    (hwritten : written.Perm ((s.workers.set tid moved).flatMap (Worker.results fs))) :
    Good fs item { setWorker tid moved s with written := written } where
  safe := h.safe
  room := h.room
  count := h.count.trans List.length_set.symm
  slots := by
    intro other hother
    apply h.slots
    rwa [setWorker, List.length_set] at hother
  stage := stage_move h.stage hw hrunning hitem
  sound := by
    intro v hv
    rcases List.mem_or_eq_of_mem_set hv with hv | rfl
    · exact h.sound v hv
    · exact hsound
  written := hwritten

/-- The results of the threads when one of them moves without writing. -/
theorem results_same (hw : s.workers[tid]? = some w)
    (hresults : moved.results fs = w.results fs) :
    (s.workers.set tid moved).flatMap (Worker.results fs) =
      s.workers.flatMap (Worker.results fs) := by
  rw [List.flatMap_def, List.flatMap_def, map_set_same hw (Worker.results fs) hresults]

theorem worker_file (h : Good fs item s) (hw : w ∈ s.workers) : w.item ∈ files fs item := by
  have hmem : w.item ∈ s.workers.map Worker.item := List.mem_map_of_mem hw
  cases hpc : s.pc with
  | opendir =>
      rw [(h.stage_at hpc).1] at hw
      cases hw
  | readdir rest =>
      rw [← (h.stage_at hpc).1]
      exact List.mem_append_left _ hmem
  | joinThreads i =>
      rw [← (h.stage_at hpc).1]
      exact hmem
  | exited =>
      rw [← (h.stage_at hpc).1]
      exact hmem

theorem good_searchStep (hfits : Fits fs item) (h : Good fs item s)
    (hw : s.workers[tid]? = some w) (hpc : w.pc = .searchTest) :
    Good fs item (searchStep fs tid w s) := by
  have hfile := worker_file h (List.mem_of_getElem? hw)
  obtain ⟨entry, -, hitem⟩ := List.mem_map.mp hfile
  obtain ⟨out, hout⟩ := Output.searchTest_join fs item.dirpath entry.dName item.keyword
  have hsearch : SearchTest.searchTest fs w.item.dirpath w.item.keyword = some out := by
    rw [← hitem]
    exact hout
  have hresult : result fs w.item = out := by rw [result, hsearch, Option.join_some]
  have hrunning : w.pc ≠ .exited := by simp [hpc]
  unfold searchStep
  rw [hsearch]
  cases out with
  | none =>
      apply good_move h hw hrunning { w with pc := .exited } rfl trivial s.written
      rw [results_same hw]
      · exact h.written
      · simp [Worker.results, hpc, hresult]
  | some out =>
      simp only
      rw [if_pos (hfits.results _ hfile out hresult)]
      apply good_move h hw hrunning { w with pc := .fileWriter out } rfl hresult s.written
      rw [results_same hw]
      · exact h.written
      · simp [Worker.results, hpc]

theorem good_fileWriter (h : Good fs item s) (hw : s.workers[tid]? = some w)
    {out : List UInt8} (hpc : w.pc = .fileWriter out) :
    Good fs item { setWorker tid { w with pc := .exited } s with
      written := s.written ++ [out] } := by
  have hresult : result fs w.item = some out := by
    have hsound := h.sound w (List.mem_of_getElem? hw)
    rw [Worker.Sound, hpc] at hsound
    exact hsound
  apply good_move h hw (by simp [hpc]) { w with pc := .exited } rfl trivial
  obtain ⟨front, back, hsplit, hset⟩ := set_split hw
  have hwritten := h.written
  rw [hsplit, List.flatMap_append, List.flatMap_cons] at hwritten
  rw [hset, List.flatMap_append, List.flatMap_cons]
  have hbefore : w.results fs = [] := by simp [Worker.results, hpc]
  have hafter : ({ w with pc := .exited } : Worker).results fs = [out] := by
    simp [Worker.results, hresult]
  rw [hbefore, List.nil_append] at hwritten
  rw [hafter]
  exact (List.perm_append_singleton out s.written).trans
    ((hwritten.cons out).trans List.perm_middle.symm)

end Worker

section Child

variable {s : State}

/-- The loop of `openDir` at an entry for which there is room. -/
theorem good_openDirLoop (h : Good fs item s) {entry : Dirent} {rest : List Dirent}
    (hpc : s.pc = .readdir (entry :: rest))
    (hroom : Output.Dirent.works entry → s.threadCount < s.tids.length ∧
      (Lister.join item.dirpath entry.dName).length + 1 ≤ MAXDIRPATH) :
    Good fs item (openDirLoop item entry rest s) := by
  obtain ⟨hfiles, hjoined⟩ := h.stage_at hpc
  rw [Output.itemFiles_cons] at hfiles
  unfold openDirLoop
  by_cases hworks : Output.Dirent.works entry
  · rw [if_pos hworks] at hfiles ⊢
    obtain ⟨hcount, hpath⟩ := hroom hworks
    simp only
    rw [if_pos hpath, storeTid, if_pos hcount]
    constructor
    · exact h.safe
    · exact (List.length_set ..).trans h.room
    · simp [h.count]
    · intro tid htid
      rw [List.length_append, List.length_singleton] at htid
      simp only
      rw [h.count]
      rcases Nat.lt_succ_iff_lt_or_eq.mp htid with hlt | rfl
      · rw [List.getElem?_set_ne (by omega)]
        exact h.slots tid hlt
      · rw [List.getElem?_set_self (h.count ▸ hcount)]
    · refine ⟨?_, hjoined⟩
      rw [List.map_append, List.append_assoc]
      exact hfiles
    · rw [List.forall_mem_append, List.forall_mem_singleton]
      exact ⟨h.sound, trivial⟩
    · rw [List.flatMap_append]
      simpa [Worker.results] using h.written
  · rw [if_neg hworks] at hfiles ⊢
    exact ⟨h.safe, h.room, h.count, h.slots, ⟨hfiles, hjoined⟩, h.sound, h.written⟩

/-- A directory that fits has room for every entry. -/
theorem room_of_fits (hfits : Fits fs item) (h : Good fs item s) {entry : Dirent}
    {rest : List Dirent} (hpc : s.pc = .readdir (entry :: rest))
    (hworks : Output.Dirent.works entry) :
    s.threadCount < s.tids.length ∧
      (Lister.join item.dirpath entry.dName).length + 1 ≤ MAXDIRPATH := by
  have hfiles := (h.stage_at hpc).1
  rw [Output.itemFiles_cons, if_pos hworks] at hfiles
  constructor
  · have hcount := hfits.count
    rw [← hfiles, List.length_append, List.length_append, List.length_map,
      List.length_singleton] at hcount
    rw [h.room, h.count]
    omega
  · apply hfits.paths ⟨Lister.join item.dirpath entry.dName, item.keyword⟩
    rw [← hfiles]
    simp

/-- The child goes on without a new thread. -/
theorem good_next (h : Good fs item s) (pc : Pc) (joined : List Nat)
    (hstage : Stage fs item s.workers joined pc) : Good fs item { s with pc, joined } :=
  ⟨h.safe, h.room, h.count, h.slots, hstage, h.sound, h.written⟩

theorem good_opendir (h : Good fs item s) (hpc : s.pc = .opendir) :
    Good fs item { s with
      pc := ((fs.opendir item.dirpath).map Pc.readdir).getD .exited } := by
  obtain ⟨hworkers, hjoined⟩ := h.stage_at hpc
  apply good_next h
  cases hopendir : fs.opendir item.dirpath with
  | none => simp [Stage, hworkers, hjoined, files, hopendir, itemFiles]
  | some entries => simp [Stage, hworkers, hjoined, files, hopendir]

/-- `pthread_join` waits for the thread whose place the loop is at. -/
theorem good_join (h : Good fs item s) {i : Nat} (hpc : s.pc = .joinThreads i) {t : State}
    (hstep : step fs item s .join = some t) : Good fs item t := by
  obtain ⟨hitems, hjoined, -, hexited⟩ := h.stage_at hpc
  obtain ⟨hlt, tid, w, htid, hw, hdone, rfl⟩ := step_join h.safe hpc hstep
  have hlt : i < s.workers.length := h.count ▸ hlt
  rw [h.slots i hlt, Option.some.injEq, Option.some.injEq] at htid
  subst htid
  apply good_next h
  refine ⟨hitems, ?_, hlt, ?_⟩
  · rw [hjoined, List.range_succ]
  · intro other hother v hv
    rcases Nat.lt_succ_iff_lt_or_eq.mp hother with hbefore | rfl
    · exact hexited other hbefore v hv
    · rw [hw] at hv
      cases hv
      exact hdone

theorem good_exit (h : Good fs item s) {i : Nat} (hpc : s.pc = .joinThreads i) {t : State}
    (hstep : step fs item s .exit = some t) : Good fs item t := by
  obtain ⟨hitems, hjoined, hle, hexited⟩ := h.stage_at hpc
  obtain ⟨hge, rfl⟩ := step_exit h.safe hpc hstep
  have hall : i = s.workers.length := le_antisymm hle (h.count ▸ hge)
  apply good_next h
  refine ⟨hitems, hall ▸ hjoined, ?_⟩
  intro w hw
  obtain ⟨tid, hlt, htid⟩ := List.mem_iff_getElem.mp hw
  exact hexited tid (hall ▸ hlt) w (List.getElem?_eq_some_iff.mpr ⟨hlt, htid⟩)

/-- Every step keeps the invariant if the directory fits. -/
theorem good_step (hfits : Fits fs item) (s : State) (event : Event) (t : State)
    (h : Good fs item s) (hstep : step fs item s event = some t) : Good fs item t := by
  cases event with
  | opendir =>
      cases hpc : s.pc with
      | opendir =>
          rw [step_opendir h.safe hpc] at hstep
          cases hstep
          exact good_opendir h hpc
      | _ => simp [step, hpc] at hstep
  | readdir =>
      cases hpc : s.pc with
      | readdir rest =>
          cases rest with
          | nil =>
              rw [step_readdir_nil h.safe hpc] at hstep
              cases hstep
              apply good_next h
              simpa [Stage, itemFiles] using h.stage_at hpc
          | cons entry rest =>
              rw [step_readdir_cons h.safe hpc] at hstep
              cases hstep
              exact good_openDirLoop h hpc (room_of_fits hfits h hpc)
      | _ => simp [step, hpc] at hstep
  | join =>
      cases hpc : s.pc with
      | joinThreads i => exact good_join h hpc hstep
      | _ => simp [step, hpc] at hstep
  | exit =>
      cases hpc : s.pc with
      | joinThreads i => exact good_exit h hpc hstep
      | _ => simp [step, hpc] at hstep
  | searchTest tid =>
      simp only [step, Option.ite_none_left_eq_some] at hstep
      obtain ⟨-, hstep⟩ := hstep
      obtain ⟨w, hw, hstep⟩ := Option.bind_eq_some_iff.mp hstep
      simp only [Option.ite_none_right_eq_some, Option.some.injEq] at hstep
      obtain ⟨hpc, rfl⟩ := hstep
      exact good_searchStep hfits h hw hpc
  | fileWriter tid =>
      simp only [step, Option.ite_none_left_eq_some] at hstep
      obtain ⟨-, hstep⟩ := hstep
      obtain ⟨w, hw, hstep⟩ := Option.bind_eq_some_iff.mp hstep
      cases hpc : w.pc with
      | fileWriter out =>
          simp only [hpc, Option.some.injEq] at hstep
          subst hstep
          exact good_fileWriter h hw hpc
      | _ => simp [hpc] at hstep

end Child

/-- In the end every thread is through with its file. -/
theorem good_exited {s : State} (h : Good fs item s) (hpc : s.pc = .exited) :
    (∀ tid < s.workers.length, tid ∈ s.joined) ∧
      s.written.Perm ((files fs item).filterMap (result fs)) := by
  obtain ⟨hitems, hjoined, hexited⟩ := h.stage_at hpc
  have hresults : s.workers.flatMap (Worker.results fs) =
      (files fs item).filterMap (result fs) := by
    rw [← hitems, List.filterMap_map, List.filterMap_eq_flatMap_toList]
    apply List.flatMap_congr
    intro w hw
    simp [Worker.results, hexited w hw]
  constructor
  · intro tid htid
    rw [hjoined]
    exact List.mem_range.mpr htid
  · rw [← hresults]
    exact h.written

theorem waitsForAll_of_fits (hfits : Fits fs item) : WaitsForAll fs item := by
  intro schedule t hrun
  have hgood : Good fs item t :=
    run_invariant (Good fs item) (good_step hfits) (good_start fs item) hrun
  exact ⟨hgood.safe, good_exited hgood⟩

end Invariant

section Overrun

/-- `openDir` is still reading and no thread has run yet. -/
structure Reading (fs : FileSystem) (item : Item) (s : State) (rest : List Dirent) : Prop
    extends Good fs item s where
  pc : s.pc = .readdir rest
  searching : ∀ w ∈ s.workers, w.pc = .searchTest ∧ w.item.dirpath.length + 1 ≤ MAXDIRPATH

variable {s : State}

/-- An entry that is read without an overrun had room. -/
theorem room_of_safe {entry : Dirent} {rest : List Dirent}
    (hsafe : (openDirLoop item entry rest s).overrun = false)
    (hworks : Output.Dirent.works entry) :
    s.threadCount < s.tids.length ∧
      (Lister.join item.dirpath entry.dName).length + 1 ≤ MAXDIRPATH := by
  unfold openDirLoop at hsafe
  rw [if_pos hworks] at hsafe
  simp only at hsafe
  split at hsafe
  case isTrue hpath =>
    unfold storeTid at hsafe
    split at hsafe
    case isTrue hcount => exact ⟨hcount, hpath⟩
    case isFalse => cases hsafe
  case isFalse => cases hsafe

theorem reading_openDirLoop {entry : Dirent} {rest : List Dirent}
    (h : Reading fs item s (entry :: rest))
    (hsafe : (openDirLoop item entry rest s).overrun = false) :
    Reading fs item (openDirLoop item entry rest s) rest := by
  have hgood : Good fs item (openDirLoop item entry rest s) :=
    good_openDirLoop h.toGood h.pc (room_of_safe hsafe)
  by_cases hworks : Output.Dirent.works entry
  · obtain ⟨hcount, hpath⟩ := room_of_safe hsafe hworks
    refine ⟨hgood, ?_, ?_⟩
    · simp [openDirLoop, hworks, hpath, storeTid, hcount]
    · have hworkers : (openDirLoop item entry rest s).workers = s.workers ++
          [⟨⟨Lister.join item.dirpath entry.dName, item.keyword⟩, .searchTest⟩] := by
        simp [openDirLoop, hworks, hpath, storeTid, hcount]
      rw [hworkers, List.forall_mem_append, List.forall_mem_singleton]
      exact ⟨h.searching, rfl, hpath⟩
  · refine ⟨hgood, ?_, ?_⟩
    · simp [openDirLoop, hworks]
    · simpa [openDirLoop, hworks] using h.searching

/-- A thread that searches without an overrun has a result that fits. -/
theorem result_fits {tid : Nat} {w : Worker} {out : List UInt8}
    (hsafe : (searchStep fs tid w s).overrun = false) (hresult : result fs w.item = some out) :
    out.length + 1 ≤ 100 * MAXOUTSIZE := by
  have hsearch : SearchTest.searchTest fs w.item.dirpath w.item.keyword = some (some out) :=
    Option.join_eq_some_iff.mp hresult
  unfold searchStep at hsafe
  rw [hsearch] at hsafe
  simp only at hsafe
  split at hsafe
  case isTrue hfits => exact hfits
  case isFalse => cases hsafe

/-- The threads that have been started at the end of the directory are as many as
the files, and each of them can be the next to run. -/
theorem fits_of_read (h : Reading fs item s [])
    (hsafe : Always (step fs item) (fun t => t.overrun = false) s) : Fits fs item := by
  have hfiles : s.workers.map Worker.item = files fs item := by
    simpa [itemFiles] using (h.stage_at h.pc).1
  constructor
  · rw [← hfiles, List.length_map]
    by_contra hmany
    have hslot := h.slots MAXTHREADS (not_le.mp hmany)
    rw [List.getElem?_eq_none h.room.le] at hslot
    cases hslot
  · intro file hfile
    rw [← hfiles] at hfile
    obtain ⟨w, hw, rfl⟩ := List.mem_map.mp hfile
    exact (h.searching w hw).2
  · intro file hfile out hout
    rw [← hfiles] at hfile
    obtain ⟨w, hw, rfl⟩ := List.mem_map.mp hfile
    obtain ⟨tid, htid⟩ := List.mem_iff_getElem?.mp hw
    have hstep : step fs item s (.searchTest tid) = some (searchStep fs tid w s) := by
      simp [step, h.safe, h.pc, htid, (h.searching w hw).1]
    exact result_fits (hsafe.next hstep).here hout

theorem fits_of_reading {rest : List Dirent} (h : Reading fs item s rest)
    (hsafe : Always (step fs item) (fun t => t.overrun = false) s) : Fits fs item := by
  induction rest generalizing s with
  | nil => exact fits_of_read h hsafe
  | cons entry rest ih =>
      have hnext := hsafe.next (step_readdir_cons h.safe h.pc)
      exact ih (reading_openDirLoop h hnext.here) hnext

theorem fits_of_waitsForAll (h : WaitsForAll fs item) : Fits fs item := by
  have hsafe : Always (step fs item) (fun t => t.overrun = false) start :=
    fun schedule t hrun => (h schedule t hrun).1
  cases hopendir : fs.opendir item.dirpath with
  | none =>
      have hfiles : files fs item = [] := by simp [files, hopendir, itemFiles]
      constructor <;> simp [hfiles]
  | some entries =>
      have hstep : step fs item start .opendir = _ := step_opendir rfl rfl
      have hgood := good_opendir (good_start fs item) rfl
      rw [hopendir] at hstep hgood
      apply fits_of_reading ⟨hgood, rfl, _⟩ (hsafe.next hstep)
      simp [start]

end Overrun

/-- A child keeps all ids and waits for all its threads, in every run, if and only
if its directory fits. -/
theorem waitsForAll_iff (fs : FileSystem) (item : Item) :
    WaitsForAll fs item ↔ Fits fs item :=
  ⟨fits_of_waitsForAll, waitsForAll_of_fits⟩

/-- A child whose threads write in the other order. -/
example : (run (step Output.twoFiles ⟨text "/d", text "w"⟩) start
    [.opendir, .readdir, .readdir, .readdir, .searchTest 0, .searchTest 1, .readdir,
      .fileWriter 1, .fileWriter 0, .join, .join, .exit]).map (fun t => (t.joined, t.written)) =
    some ([0, 1], [text "b:2:w\n", text "a:1:w\n"]) := by decide

/-- `/d` with one file more than `tids` has slots. -/
def crowded : FileSystem where
  opendir path :=
    if path = text "/d" then
      some ((List.range 21).map fun n => ⟨List.replicate (n + 1) 'f'.toUInt8, 8⟩)
    else none
  fopen _ := some (text "w\n")

/-- The id of the last thread goes behind the end of `tids`. -/
theorem crowded_overruns :
    (run (step crowded ⟨text "/d", text "w"⟩) start
      (.opendir :: List.replicate 21 .readdir)).map State.overrun = some true ∧
      ¬ WaitsForAll crowded ⟨text "/d", text "w"⟩ := by
  constructor
  · decide
  · intro h
    have hcount := (fits_of_waitsForAll h).count
    revert hcount
    decide

end Cse420.Server.JoinThreads
