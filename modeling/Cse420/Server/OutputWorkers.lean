import Cse420.Server.Output

/-!
What every schedule of the threads keeps: `SEMbuf` lets in one thread at a time,
and the file holds whole results followed by a part of the one being written.
-/

namespace Cse420.Server.Output

open CMemory Lister Machine SysVSem
open Queue (Item)

section Invariant

variable {κ : Type}

def allWorkers (children : List (Child κ)) : List Worker := children.flatMap Child.workers

/-- Between `waits(SEMbuf)` and `signals(SEMbuf)`. -/
def Worker.holds (w : Worker) : Bool :=
  match w.pc with
  | .write _ _ => true
  | _ => false

/-- What a thread that is still writing has in the file. -/
def Worker.written (w : Worker) : List UInt8 :=
  match w.pc with
  | .write written _ => written
  | _ => []

/-- What a thread has added to the file in the end. -/
def Worker.results (fs : FileSystem) (w : Worker) : List (List UInt8) :=
  match w.pc with
  | .exited => (result fs w.item).toList
  | _ => []

/-- A thread writes the result of its own file. -/
def Worker.Sound (fs : FileSystem) (w : Worker) : Prop :=
  match w.pc with
  | .searchTest => True
  | .waits out => result fs w.item = some out
  | .write written rest => result fs w.item = some (written ++ rest)
  | .exited => True

/-- A child has a thread for each file it has seen, and exits after them. -/
def Child.Serves (fs : FileSystem) (c : Child κ) : Prop :=
  match c.pc with
  | .waits => c.workers = []
  | .opendir => c.workers = []
  | .readdir rest => c.workers.map Worker.item ++ itemFiles c.curItem rest = files fs c.curItem
  | .signals => c.workers.map Worker.item = files fs c.curItem
  | .joinThreads => c.workers.map Worker.item = files fs c.curItem
  | .exited => c.workers.map Worker.item = files fs c.curItem ∧ ∀ w ∈ c.workers, w.pc = .exited

/-- One thread at a time has the file open. -/
structure Locked (ids : Ids κ) (semval : κ → Nat) (children : List (Child κ)) : Prop where
  value : semval ids.SEMbuf + (allWorkers children).countP Worker.holds = 1
  adj : ∀ c ∈ children, c.semadj ids.SEMbuf = (c.workers.countP Worker.holds : Nat)

/-- What the file holds: the results of the threads that are through, in the
order in which they got in, and the first part of the one being written. -/
structure Accounted (fs : FileSystem) (workers : List Worker) (output : List UInt8)
    (finished : List (List UInt8)) : Prop where
  perm : finished.Perm (workers.flatMap (Worker.results fs))
  output : output = finished.flatten ++ workers.flatMap Worker.written

/-- The invariant. -/
structure Good (ids : Ids κ) (fs : FileSystem) (requests : List Item) (s : State κ) : Prop where
  safe : s.overrun = false
  items : s.children.map Child.curItem ++ (s.curItem.toList ++ s.requests) = requests
  serves : ∀ c ∈ s.children, Child.Serves fs c
  sound : ∀ w ∈ allWorkers s.children, Worker.Sound fs w
  locked : Locked ids s.semval s.children
  accounted : ∃ finished, Accounted fs (allWorkers s.children) s.output finished

variable {ids : Ids κ} {fs : FileSystem} {requests : List Item}

/-- A thread moves: the threads before and after it stay. -/
theorem allWorkers_set {children : List (Child κ)} {i j : Nat} {c : Child κ} {w : Worker}
    (hi : children[i]? = some c) (hj : c.workers[j]? = some w) :
    ∃ front back, allWorkers children = front ++ w :: back ∧
      ∀ (next : Child κ) (moved : Worker), next.workers = c.workers.set j moved →
        allWorkers (children.set i next) = front ++ moved :: back := by
  obtain ⟨before, after, hsplit, hset⟩ := set_split hi
  obtain ⟨first, last, hworkers, hsetw⟩ := set_split hj
  refine ⟨allWorkers before ++ first, last ++ allWorkers after, ?_, ?_⟩
  · simp [allWorkers, hsplit, hworkers]
  · intro next moved hnext
    simp [allWorkers, hset, hnext, hsetw]

/-- Two adjacent parts of the threads and the one between them. -/
theorem countP_middle {α : Type} (p : α → Bool) (front back : List α) (a : α) :
    (front ++ a :: back).countP p = front.countP p + back.countP p + (p a).toNat := by
  rw [List.countP_append, List.countP_cons]
  cases p a with
  | false => simp
  | true =>
      simp
      omega

section Move

variable {s : State κ} {i j : Nat} {c next : Child κ} {w moved : Worker}

/-- Whatever a thread takes from `SEMbuf` is in the adjustment of its child. -/
theorem Locked.move {semval after : κ → Nat} {children : List (Child κ)}
    (h : Locked ids semval children) (hi : children[i]? = some c) (hj : c.workers[j]? = some w)
    (hnext : next.workers = c.workers.set j moved)
    (hvalue : after ids.SEMbuf + moved.holds.toNat = semval ids.SEMbuf + w.holds.toNat)
    (hadj : next.semadj ids.SEMbuf + w.holds.toNat = c.semadj ids.SEMbuf + moved.holds.toNat) :
    Locked ids after (children.set i next) := by
  obtain ⟨front, back, hall, hset⟩ := allWorkers_set hi hj
  constructor
  · have hbefore := h.value
    rw [hall, countP_middle] at hbefore
    rw [hset next moved hnext, countP_middle]
    omega
  · intro d hd
    rcases List.mem_or_eq_of_mem_set hd with hd | rfl
    · exact h.adj d hd
    · have hold := h.adj c (List.mem_of_getElem? hi)
      have hcount := countP_set_add hj moved Worker.holds
      rw [hnext]
      omega

theorem serves_move (h : Child.Serves fs c) (hj : c.workers[j]? = some w)
    (hrunning : w.pc ≠ .exited) (hitem : moved.item = w.item)
    (hworkers : next.workers = c.workers.set j moved) (hpc : next.pc = c.pc)
    (hcur : next.curItem = c.curItem) : Child.Serves fs next := by
  have hmap : next.workers.map Worker.item = c.workers.map Worker.item := by
    rw [hworkers]
    exact map_set_same hj Worker.item hitem
  have hmem := List.mem_of_getElem? hj
  unfold Child.Serves at h ⊢
  rw [hpc, hcur, hmap]
  cases hplace : c.pc with
  | waits =>
      simp only [hplace] at h
      simp [h] at hmem
  | opendir =>
      simp only [hplace] at h
      simp [h] at hmem
  | readdir rest =>
      simp only [hplace] at h
      exact h
  | signals =>
      simp only [hplace] at h
      exact h
  | joinThreads =>
      simp only [hplace] at h
      exact h
  | exited =>
      -- the threads of a child that has exited take no step
      simp only [hplace] at h
      exact absurd (h.2 w hmem) hrunning

/-- A step of a thread, apart from what it does to the file. -/
theorem good_move (h : Good ids fs requests s) (hi : s.children[i]? = some c)
    (hj : c.workers[j]? = some w) (hrunning : w.pc ≠ .exited) (moved : Worker)
    (after : κ → Nat) (adj : κ → Int) (output : List UInt8) (hitem : moved.item = w.item)
    (hsound : Worker.Sound fs moved)
    (hvalue : after ids.SEMbuf + moved.holds.toNat = s.semval ids.SEMbuf + w.holds.toNat)
    (hadj : adj ids.SEMbuf + w.holds.toNat = c.semadj ids.SEMbuf + moved.holds.toNat)
    (haccounted : ∀ front back, (front ++ w :: back).countP Worker.holds ≤ 1 →
      (∃ finished, Accounted fs (front ++ w :: back) s.output finished) →
      ∃ finished, Accounted fs (front ++ moved :: back) output finished) :
    Good ids fs requests (setWorker { s with semval := after, output } i { c with semadj := adj }
      j moved) := by
  let next : Child κ := { c with workers := c.workers.set j moved, semadj := adj }
  obtain ⟨front, back, hall, hset⟩ := allWorkers_set hi hj
  have hafter := hset next moved rfl
  constructor
  · exact h.safe
  · have hitems : (s.children.set i next).map Child.curItem = s.children.map Child.curItem :=
      map_set_same hi Child.curItem rfl
    rw [← h.items, ← hitems]
    rfl
  · intro d hd
    rcases List.mem_or_eq_of_mem_set hd with hd | rfl
    · exact h.serves d hd
    · exact serves_move (h.serves c (List.mem_of_getElem? hi)) hj hrunning hitem rfl rfl rfl
  · intro v hv
    have hold := h.sound
    rw [hall] at hold
    rw [setWorker, hafter, List.mem_append, List.mem_cons] at hv
    rcases hv with hv | rfl | hv
    · exact hold v (by simp [hv])
    · exact hsound
    · exact hold v (by simp [hv])
  · exact h.locked.move hi hj rfl hvalue hadj
  · have hone := h.locked.value
    have hold := h.accounted
    rw [hall] at hone hold
    show ∃ finished, Accounted fs (allWorkers (s.children.set i next)) output finished
    rw [hafter]
    exact haccounted front back (by omega) hold

end Move

section File

variable {front back : List Worker} {w moved : Worker} {output piece : List UInt8}
  {finished : List (List UInt8)}

theorem written_of_not_holds {v : Worker} (h : ¬ v.holds = true) : v.written = [] := by
  unfold Worker.holds at h
  unfold Worker.written
  split at h
  · exact absurd rfl h
  · rfl

/-- Beside a thread that holds the file no other one has a part in it. -/
theorem others_written (hone : (front ++ w :: back).countP Worker.holds ≤ 1)
    (hholds : w.holds = true) :
    front.flatMap Worker.written = [] ∧ back.flatMap Worker.written = [] := by
  rw [countP_middle, hholds, Bool.toNat_true] at hone
  have hnone {l : List Worker} (hcount : l.countP Worker.holds = 0) :
      l.flatMap Worker.written = [] := by
    rw [List.flatMap_eq_nil_iff]
    intro v hv
    exact written_of_not_holds (List.countP_eq_zero.mp hcount v hv)
  exact ⟨hnone (by omega), hnone (by omega)⟩

theorem Accounted.quiet (h : Accounted fs (front ++ w :: back) output finished)
    (hwritten : moved.written = w.written) (hresults : moved.results fs = w.results fs) :
    Accounted fs (front ++ moved :: back) output finished := by
  constructor
  · simpa [hresults] using h.perm
  · simpa [hwritten] using h.output

theorem Accounted.write (h : Accounted fs (front ++ w :: back) output finished)
    (hone : (front ++ w :: back).countP Worker.holds ≤ 1) (hholds : w.holds = true)
    (hwritten : moved.written = w.written ++ piece) (hresults : moved.results fs = w.results fs) :
    Accounted fs (front ++ moved :: back) (output ++ piece) finished := by
  obtain ⟨hfront, hback⟩ := others_written hone hholds
  constructor
  · simpa [hresults] using h.perm
  · rw [h.output]
    simp [hfront, hback, hwritten]

/-- The thread that leaves has its result behind all the others. -/
theorem Accounted.signals (h : Accounted fs (front ++ w :: back) output finished)
    (hone : (front ++ w :: back).countP Worker.holds ≤ 1) (hholds : w.holds = true)
    (hwritten : moved.written = []) (hbefore : w.results fs = [])
    (hresults : moved.results fs = [w.written]) :
    Accounted fs (front ++ moved :: back) output (finished ++ [w.written]) := by
  obtain ⟨hfront, hback⟩ := others_written hone hholds
  constructor
  · have hperm := h.perm
    simp only [List.flatMap_append, List.flatMap_cons, hbefore, List.nil_append] at hperm
    simp only [List.flatMap_append, List.flatMap_cons, hresults]
    have hlast : (finished ++ [w.written]).Perm (w.written :: finished) := List.perm_append_comm
    exact hlast.trans ((hperm.cons _).trans List.perm_middle.symm)
  · rw [h.output]
    simp [hfront, hback, hwritten]

end File

theorem scanBack_isSome {b : UInt8} {m : Mem} {i n : Nat} (hi : m[i]? = some b) (hle : i ≤ n) :
    ∃ e, scanBack b m n = some e := by
  induction n with
  | zero =>
      obtain rfl : i = 0 := by omega
      exact ⟨0, scanBack_hit b m 0 hi⟩
  | succ n ih =>
      by_cases hat : m[n + 1]? = some b
      · exact ⟨n + 1, scanBack_hit b m (n + 1) hat⟩
      · rw [scanBack_step b m n hat]
        apply ih
        by_contra hgt
        obtain rfl : i = n + 1 := by omega
        exact hat hi

/-- A path with a slash has a name for `search_test`. -/
theorem searchTest_join (fs : FileSystem) (path name keyword : List UInt8) :
    ∃ out, SearchTest.searchTest fs (join path name) keyword = some out := by
  have hslash : (join path name)[path.length]? = some slash := by simp [join]
  obtain ⟨e, he⟩ := scanBack_isSome (n := (join path name).length - 1) hslash (by simp [join])
  unfold SearchTest.searchTest
  split
  · exact ⟨none, rfl⟩
  · cases fs.fopen (join path name) with
    | none => exact ⟨none, rfl⟩
    | some file =>
        simp only [he]
        exact ⟨_, rfl⟩

theorem serves_files {c : Child κ} {w : Worker} (h : Child.Serves fs c) (hw : w ∈ c.workers) :
    w.item ∈ files fs c.curItem := by
  have hmem : w.item ∈ c.workers.map Worker.item := List.mem_map.mpr ⟨w, hw, rfl⟩
  unfold Child.Serves at h
  cases hplace : c.pc with
  | waits =>
      simp only [hplace] at h
      simp [h] at hw
  | opendir =>
      simp only [hplace] at h
      simp [h] at hw
  | readdir rest =>
      simp only [hplace] at h
      rw [← h]
      exact List.mem_append_left _ hmem
  | signals =>
      simp only [hplace] at h
      rwa [h] at hmem
  | joinThreads =>
      simp only [hplace] at h
      rwa [h] at hmem
  | exited =>
      simp only [hplace] at h
      rwa [h.1] at hmem

section Steps

variable [DecidableEq κ] {s next : State κ} {i j : Nat} {c : Child κ} {w : Worker}

theorem good_searchTest (h : Good ids fs requests s) (hi : s.children[i]? = some c)
    (hj : c.workers[j]? = some w)
    (hstep : workerStep ids fs s i c j w .searchTest = some next) : Good ids fs requests next := by
  simp only [workerStep, Option.ite_none_right_eq_some] at hstep
  obtain ⟨hpc, hsearch⟩ := hstep
  have hrunning : w.pc ≠ .exited := by simp [hpc]
  have hfile := serves_files (h.serves c (List.mem_of_getElem? hi)) (List.mem_of_getElem? hj)
  obtain ⟨entry, -, hitem⟩ := List.mem_map.mp hfile
  obtain ⟨out, hout⟩ := searchTest_join fs c.curItem.dirpath entry.dName c.curItem.keyword
  have hsame : SearchTest.searchTest fs w.item.dirpath w.item.keyword = some out := by
    rw [← hitem]
    exact hout
  have hresult : result fs w.item = out := by rw [result, hsame, Option.join_some]
  rw [hsame] at hsearch
  cases out with
  | none =>
      cases hsearch
      apply good_move h hi hj hrunning { w with pc := .exited } s.semval c.semadj s.output
      · rfl
      · trivial
      · simp [Worker.holds, hpc]
      · simp [Worker.holds, hpc]
      · rintro front back - ⟨finished, hold⟩
        refine ⟨finished, hold.quiet ?_ ?_⟩
        · simp [Worker.written, hpc]
        · simp [Worker.results, hpc, hresult]
  | some out =>
      cases hsearch
      apply good_move h hi hj hrunning { w with pc := .waits out } s.semval c.semadj s.output
      · rfl
      · exact hresult
      · simp [Worker.holds, hpc]
      · simp [Worker.holds, hpc]
      · rintro front back - ⟨finished, hold⟩
        refine ⟨finished, hold.quiet ?_ ?_⟩
        · simp [Worker.written, hpc]
        · simp [Worker.results, hpc]

theorem good_waits (h : Good ids fs requests s) (hi : s.children[i]? = some c)
    (hj : c.workers[j]? = some w) (hsound : Worker.Sound fs w)
    (hstep : workerStep ids fs s i c j w .waits = some next) : Good ids fs requests next := by
  simp only [workerStep] at hstep
  split at hstep
  case h_2 => cases hstep
  case h_1 out hpc =>
    obtain ⟨after, hwaits, rfl⟩ := Option.map_eq_some_iff.mp hstep
    obtain ⟨hpos, hvalue, hadj⟩ := waits_cases hwaits
    rw [Worker.Sound, hpc] at hsound
    apply good_move h hi hj (by simp [hpc]) { w with pc := .write [] out } after.1 after.2 s.output
    · rfl
    · exact hsound
    · simp [Worker.holds, hpc, hvalue]
      omega
    · simp [Worker.holds, hpc, hadj]
    · rintro front back - ⟨finished, hold⟩
      refine ⟨finished, hold.quiet ?_ ?_⟩
      · simp [Worker.written, hpc]
      · simp [Worker.results, hpc]

theorem good_write (h : Good ids fs requests s) (hi : s.children[i]? = some c)
    (hj : c.workers[j]? = some w) (hsound : Worker.Sound fs w) {n : Nat}
    (hstep : workerStep ids fs s i c j w (.write n) = some next) : Good ids fs requests next := by
  simp only [workerStep] at hstep
  split at hstep
  case h_2 => cases hstep
  case h_1 written rest hpc =>
    cases hstep
    rw [Worker.Sound, hpc] at hsound
    apply good_move h hi hj (by simp [hpc])
      { w with pc := .write (written ++ rest.take n) (rest.drop n) } s.semval c.semadj
      (s.output ++ rest.take n)
    · rfl
    · simpa [Worker.Sound] using hsound
    · simp [Worker.holds, hpc]
    · simp [Worker.holds, hpc]
    · rintro front back hone ⟨finished, hold⟩
      refine ⟨finished, hold.write hone ?_ ?_ ?_⟩
      · simp [Worker.holds, hpc]
      · simp [Worker.written, hpc]
      · simp [Worker.results, hpc]

theorem good_signals (h : Good ids fs requests s) (hi : s.children[i]? = some c)
    (hj : c.workers[j]? = some w) (hsound : Worker.Sound fs w)
    (hstep : workerStep ids fs s i c j w .signals = some next) : Good ids fs requests next := by
  simp only [workerStep] at hstep
  split at hstep
  case h_2 => cases hstep
  case h_1 written hpc =>
    cases hstep
    have hbound := h.locked.value
    have hsmall : s.semval ids.SEMbuf < SEMVMX := by
      unfold SEMVMX
      omega
    obtain ⟨hvalue, hadj⟩ := signals_eq c.semadj hsmall
    rw [Worker.Sound, hpc] at hsound
    apply good_move h hi hj (by simp [hpc]) { w with pc := .exited } _ _ s.output
    · rfl
    · trivial
    · simp [Worker.holds, hpc, hvalue]
    · simp [Worker.holds, hpc, hadj]
    · rintro front back hone ⟨finished, hold⟩
      refine ⟨_, hold.signals hone ?_ ?_ ?_ ?_⟩
      · simp [Worker.holds, hpc]
      · simp [Worker.written]
      · simp [Worker.results, hpc]
      · simp [Worker.results, Worker.written, hpc, hsound]

theorem good_worker (h : Good ids fs requests s) (hi : s.children[i]? = some c)
    (hj : c.workers[j]? = some w) {event : WorkerEvent}
    (hstep : workerStep ids fs s i c j w event = some next) : Good ids fs requests next := by
  have hsound : Worker.Sound fs w := by
    apply h.sound
    exact List.mem_flatMap.mpr ⟨c, List.mem_of_getElem? hi, List.mem_of_getElem? hj⟩
  cases event with
  | searchTest => exact good_searchTest h hi hj hstep
  | waits => exact good_waits h hi hj hsound hstep
  | write n => exact good_write h hi hj hsound hstep
  | signals => exact good_signals h hi hj hsound hstep

end Steps

end Invariant

end Cse420.Server.Output
