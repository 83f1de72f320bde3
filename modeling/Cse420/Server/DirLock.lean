import Cse420.Lib.Machine
import Cse420.Queue.Segment

/-!
The directory semaphore of `server.c`. `dequeueItem` looks up `SEMfr` for the
directory of the request and sets it to one, `main` forks, and the child opens
the directory between `waits(SEMfr)` and `signals(SEMfr)`. The semaphores are
the System V ones: `semop` with `SEM_UNDO` keeps an adjustment per process that
is applied when the process exits, and `SETVAL` clears the adjustments of its
semaphore.
-/

namespace Cse420.Server.DirLock

open CMemory Machine
open Queue (Item)

/-- Where a child is in `ChildsPlay`. -/
inductive ChildPc where
  | waits
  | openDir
  | signals
  | joinThreads
  | exited
  deriving DecidableEq

/-- A forked child with its copies of `curItem` and `SEMfr`. -/
structure Child (κ : Type) where
  curItem : Item
  SEMfr : κ
  pc : ChildPc
  semadj : Int

/-- The parent in `main`, its children and the kernel's semaphores. The child
that `main` does not start because it has seen the exit command takes no step. -/
structure State (κ : Type) where
  requests : List Item
  curItem : Option Item
  SEMfr : κ
  semval : κ → Nat
  children : List (Child κ)

inductive ChildEvent where
  | waits
  /-- `opendir` succeeds, or it fails and `openDir` calls `exit(-1)`. -/
  | openDir (opens : Bool)
  | signals
  | exit

inductive Event where
  | dequeueItem
  | fork
  | child (i : Nat) (event : ChildEvent)

variable {κ : Type} [DecidableEq κ]

/-- `sem_ini`, that is `semctl` with `SETVAL`. -/
def semIni (semid : κ) (val : Nat) (s : State κ) : State κ :=
  { s with
    semval := Function.update s.semval semid val
    children := s.children.map fun c =>
      if c.SEMfr = semid then { c with semadj := 0 } else c }

/-- What the kernel does with the adjustment when the process ends. -/
def exitUndo (semval : κ → Nat) (c : Child κ) : (κ → Nat) × Child κ :=
  (Function.update semval c.SEMfr ((semval c.SEMfr : Int) + c.semadj).toNat,
    { c with pc := .exited, semadj := 0 })

/-- One step of `ChildsPlay`; `waits` blocks at zero. -/
def childStep (semval : κ → Nat) (c : Child κ) : ChildEvent → Option ((κ → Nat) × Child κ)
  | .waits =>
      if c.pc = .waits ∧ 0 < semval c.SEMfr then
        some (Function.update semval c.SEMfr (semval c.SEMfr - 1),
          { c with pc := .openDir, semadj := c.semadj + 1 })
      else none
  | .openDir opens =>
      if c.pc = .openDir then
        some (if opens then (semval, { c with pc := .signals }) else exitUndo semval c)
      else none
  | .signals =>
      if c.pc = .signals then
        some (Function.update semval c.SEMfr (semval c.SEMfr + 1),
          { c with pc := .joinThreads, semadj := c.semadj - 1 })
      else none
  | .exit => if c.pc = .joinThreads then some (exitUndo semval c) else none

/-- One step of the server or of one of its children. `ftok` stands for
`ftok(dirpath, 'E')` followed by `semget`. -/
def step (ftok : List UInt8 → κ) (s : State κ) : Event → Option (State κ)
  | .dequeueItem =>
      match s.requests, s.curItem with
      | item :: rest, none =>
          some (semIni (ftok item.dirpath) 1
            { s with requests := rest, curItem := some item, SEMfr := ftok item.dirpath })
      | _, _ => none
  | .fork =>
      s.curItem.map fun item =>
        { s with
          curItem := none
          children := s.children ++ [⟨item, s.SEMfr, .waits, 0⟩] }
  | .child i event => do
      let c ← s.children[i]?
      let (semval, c) ← childStep s.semval c event
      return { s with semval, children := s.children.set i c }

/-- `main` before the first request. Semaphores of earlier runs may exist with
any value. -/
def start (requests : List Item) (SEMfr : κ) (semval : κ → Nat) : State κ :=
  ⟨requests, none, SEMfr, semval, []⟩

/-- Between `waits(SEMfr)` and `signals(SEMfr)`. -/
def Child.inside (c : Child κ) : Bool := c.pc = .openDir ∨ c.pc = .signals

/-- The children inside for a directory, which is what `ftok` identifies. -/
def insideCount (ftok : List UInt8 → κ) (s : State κ) (dirpath : List UInt8) : Nat :=
  s.children.countP fun c => c.inside && ftok c.curItem.dirpath = ftok dirpath

def MutualExclusion (ftok : List UInt8 → κ) (s : State κ) : Prop :=
  ∀ dirpath, insideCount ftok s dirpath ≤ 1

/-- The step does not set up a semaphore that a child holds. -/
def Quiet (ftok : List UInt8 → κ) (s : State κ) : Event → Prop
  | .dequeueItem => ∀ item ∈ s.requests.head?, insideCount ftok s item.dirpath = 0
  | _ => True

/-- The invariant of quiet schedules: a semaphore that is in use counts the
child it lets in next, and the adjustment of a child is what it would give back. -/
structure Locked (ftok : List UInt8 → κ) (s : State κ) : Prop where
  key : ∀ c ∈ s.children, c.SEMfr = ftok c.curItem.dirpath
  adj : ∀ c ∈ s.children, c.semadj = c.inside.toNat
  cur : ∀ item ∈ s.curItem, s.SEMfr = ftok item.dirpath
  value : ∀ dirpath,
    ((∃ c ∈ s.children, c.SEMfr = ftok dirpath) ∨
      (s.curItem.isSome ∧ s.SEMfr = ftok dirpath)) →
    s.semval (ftok dirpath) + insideCount ftok s dirpath = 1

/-- A child changes only its own semaphore, and together with its own place in
`ChildsPlay` the value stays. -/
theorem childStep_spec {semval after : κ → Nat} {c next : Child κ} {event : ChildEvent}
    (hadj : c.semadj = c.inside.toNat)
    (hstep : childStep semval c event = some (after, next)) :
    next.curItem = c.curItem ∧ next.SEMfr = c.SEMfr ∧
      next.semadj = next.inside.toNat ∧
      (∀ k, k ≠ c.SEMfr → after k = semval k) ∧
      after c.SEMfr + next.inside.toNat = semval c.SEMfr + c.inside.toNat := by
  cases event with
  | waits =>
      simp only [childStep, Option.ite_none_right_eq_some, Option.some.injEq,
        Prod.mk.injEq] at hstep
      obtain ⟨⟨hpc, hpos⟩, rfl, rfl⟩ := hstep
      have hin : c.inside = false := by simp [Child.inside, hpc]
      rw [hin] at hadj
      refine ⟨rfl, rfl, ?_, ?_, ?_⟩
      · simp [Child.inside, hadj]
      · intro k hk
        simp [hk]
      · simp [Child.inside, hpc]
        omega
  | openDir opens =>
      simp only [childStep, Option.ite_none_right_eq_some, Option.some.injEq] at hstep
      obtain ⟨hpc, hout⟩ := hstep
      have hin : c.inside = true := by simp [Child.inside, hpc]
      rw [hin] at hadj
      cases opens with
      | true =>
          simp only [if_true, Prod.mk.injEq] at hout
          obtain ⟨rfl, rfl⟩ := hout
          refine ⟨rfl, rfl, ?_, ?_, ?_⟩
          · simp [Child.inside, hadj]
          · intro k _
            rfl
          · simp [Child.inside, hpc]
      | false =>
          simp only [Bool.false_eq_true, if_false, exitUndo, Prod.mk.injEq] at hout
          obtain ⟨rfl, rfl⟩ := hout
          refine ⟨rfl, rfl, ?_, ?_, ?_⟩
          · simp [Child.inside]
          · intro k hk
            simp [hk]
          · simp only [Function.update_self, hadj, hin]
            simp [Child.inside]
  | signals =>
      simp only [childStep, Option.ite_none_right_eq_some, Option.some.injEq,
        Prod.mk.injEq] at hstep
      obtain ⟨hpc, rfl, rfl⟩ := hstep
      have hin : c.inside = true := by simp [Child.inside, hpc]
      rw [hin] at hadj
      refine ⟨rfl, rfl, ?_, ?_, ?_⟩
      · simp [Child.inside, hadj]
      · intro k hk
        simp [hk]
      · simp [Child.inside, hpc]
  | exit =>
      simp only [childStep, Option.ite_none_right_eq_some, Option.some.injEq, exitUndo,
        Prod.mk.injEq] at hstep
      obtain ⟨hpc, rfl, rfl⟩ := hstep
      have hin : c.inside = false := by simp [Child.inside, hpc]
      rw [hin] at hadj
      refine ⟨rfl, rfl, ?_, ?_, ?_⟩
      · simp [Child.inside]
      · intro k hk
        simp [hk]
      · simp [Child.inside, hpc, hadj]

theorem locked_start (ftok : List UInt8 → κ) (requests : List Item) (SEMfr : κ)
    (semval : κ → Nat) : Locked ftok (start requests SEMfr semval) where
  key := by simp [start]
  adj := by simp [start]
  cur := by simp [start]
  value := by simp [start]

/-- `SETVAL` moves no child. -/
theorem insideCount_semIni (ftok : List UInt8 → κ) (s : State κ) (semid : κ) (val : Nat)
    (dirpath : List UInt8) :
    insideCount ftok (semIni semid val s) dirpath = insideCount ftok s dirpath := by
  unfold insideCount semIni
  rw [List.countP_map]
  congr 1
  funext c
  simp only [Function.comp]
  split <;> rfl

theorem insideCount_fork (ftok : List UInt8 → κ) (s : State κ) (item : Item) (semid : κ)
    (adj : Int) (dirpath : List UInt8) (curItem : Option Item) :
    insideCount ftok { s with
      curItem := curItem, children := s.children ++ [⟨item, semid, .waits, adj⟩] } dirpath =
      insideCount ftok s dirpath := by
  simp [insideCount, Child.inside]

theorem insideCount_set (ftok : List UInt8 → κ) (s : State κ) {i : Nat} {c next : Child κ}
    (semval : κ → Nat) (hi : s.children[i]? = some c) (hitem : next.curItem = c.curItem)
    (dirpath : List UInt8) :
    insideCount ftok { s with semval := semval, children := s.children.set i next } dirpath +
        (if ftok c.curItem.dirpath = ftok dirpath then c.inside.toNat else 0) =
      insideCount ftok s dirpath +
        (if ftok c.curItem.dirpath = ftok dirpath then next.inside.toNat else 0) := by
  have hcount := countP_set_add hi next fun d =>
    d.inside && ftok d.curItem.dirpath = ftok dirpath
  by_cases hkey : ftok c.curItem.dirpath = ftok dirpath
  · simpa [insideCount, hkey, hitem] using hcount
  · simpa [insideCount, hkey, hitem] using hcount

theorem dequeueItem_cases {ftok : List UInt8 → κ} {s next : State κ}
    (hstep : step ftok s .dequeueItem = some next) :
    ∃ item rest, s.requests = item :: rest ∧ s.curItem = none ∧
      next = semIni (ftok item.dirpath) 1
        { s with requests := rest, curItem := some item, SEMfr := ftok item.dirpath } := by
  simp only [step] at hstep
  split at hstep
  · rename_i item rest hreq hcur
    exact ⟨item, rest, hreq, hcur, (Option.some.inj hstep).symm⟩
  · cases hstep

theorem locked_dequeueItem {ftok : List UInt8 → κ} {s next : State κ} (h : Locked ftok s)
    (hquiet : Quiet ftok s .dequeueItem) (hstep : step ftok s .dequeueItem = some next) :
    Locked ftok next := by
  obtain ⟨item, rest, hreq, hcur, rfl⟩ := dequeueItem_cases hstep
  have hnone : insideCount ftok s item.dirpath = 0 := by
    apply hquiet
    simp [hreq]
  have hmem : ∀ c ∈ s.children.map (fun c : Child κ =>
      if c.SEMfr = ftok item.dirpath then { c with semadj := 0 } else c),
      ∃ d ∈ s.children, c.SEMfr = d.SEMfr ∧ c.curItem = d.curItem ∧ c.inside = d.inside ∧
        c.semadj = if d.SEMfr = ftok item.dirpath then 0 else d.semadj := by
    intro c hc
    obtain ⟨d, hd, rfl⟩ := List.mem_map.mp hc
    refine ⟨d, hd, ?_⟩
    split <;> simp [Child.inside]
  constructor
  · intro c hc
    obtain ⟨d, hd, hkey, hitem, -, -⟩ := hmem c hc
    rw [hkey, hitem]
    exact h.key d hd
  · intro c hc
    obtain ⟨d, hd, -, -, hin, hadj⟩ := hmem c hc
    rw [hadj, hin]
    split
    · -- a child of this directory is not inside, so nothing is cleared
      rename_i hkey
      have hout : d.inside = false := by
        rw [Bool.eq_false_iff]
        intro hd_in
        apply (List.countP_eq_zero.mp hnone) d hd
        simp [hd_in, ← hkey, h.key d hd]
      simp [hout]
    · exact h.adj d hd
  · intro other hother
    cases hother
    rfl
  · intro dirpath huse
    rw [insideCount_semIni]
    by_cases hkey : ftok dirpath = ftok item.dirpath
    · have hcount : insideCount ftok s dirpath = insideCount ftok s item.dirpath := by
        simp only [insideCount, hkey]
      simp only [insideCount, semIni, hkey, Function.update_self] at hcount hnone ⊢
      omega
    · simp only [semIni, Function.update_of_ne hkey]
      apply h.value
      rcases huse with ⟨c, hc, hfor⟩ | ⟨-, hfor⟩
      · obtain ⟨d, hd, hsame, -⟩ := hmem c hc
        exact .inl ⟨d, hd, hsame ▸ hfor⟩
      · exact absurd hfor.symm hkey

theorem locked_fork {ftok : List UInt8 → κ} {s next : State κ} (h : Locked ftok s)
    (hstep : step ftok s .fork = some next) : Locked ftok next := by
  obtain ⟨item, hcur, rfl⟩ := Option.map_eq_some_iff.mp hstep
  constructor
  · intro c hc
    rcases List.mem_append.mp hc with hc | hc
    · exact h.key c hc
    · cases List.mem_singleton.mp hc
      exact h.cur item hcur
  · intro c hc
    rcases List.mem_append.mp hc with hc | hc
    · exact h.adj c hc
    · cases List.mem_singleton.mp hc
      simp [Child.inside]
  · simp
  · intro dirpath huse
    rw [insideCount_fork]
    apply h.value
    rcases huse with ⟨c, hc, hfor⟩ | ⟨hnone, -⟩
    · rcases List.mem_append.mp hc with hc | hc
      · exact .inl ⟨c, hc, hfor⟩
      · cases List.mem_singleton.mp hc
        exact .inr ⟨by simp [hcur], hfor⟩
    · cases hnone

theorem locked_child {ftok : List UInt8 → κ} {s next : State κ} {i : Nat}
    {event : ChildEvent} (h : Locked ftok s)
    (hstep : step ftok s (.child i event) = some next) : Locked ftok next := by
  obtain ⟨c, hi, hrest⟩ := Option.bind_eq_some_iff.mp hstep
  obtain ⟨⟨semval, moved⟩, hchild, hnext⟩ := Option.bind_eq_some_iff.mp hrest
  cases hnext
  have hmem : c ∈ s.children := List.mem_of_getElem? hi
  obtain ⟨hitem, hsem, hadj, hframe, hvalue⟩ := childStep_spec (h.adj c hmem) hchild
  constructor
  · intro d hd
    rcases List.mem_or_eq_of_mem_set hd with hd | rfl
    · exact h.key d hd
    · rw [hsem, hitem]
      exact h.key c hmem
  · intro d hd
    rcases List.mem_or_eq_of_mem_set hd with hd | rfl
    · exact h.adj d hd
    · exact hadj
  · exact h.cur
  · intro dirpath huse
    have hold : s.semval (ftok dirpath) + insideCount ftok s dirpath = 1 := by
      apply h.value
      rcases huse with ⟨d, hd, hfor⟩ | hcur
      · rcases List.mem_or_eq_of_mem_set hd with hd | rfl
        · exact .inl ⟨d, hd, hfor⟩
        · exact .inl ⟨c, hmem, hsem ▸ hfor⟩
      · exact .inr hcur
    have hcount := insideCount_set ftok s semval hi hitem dirpath
    have hkey := h.key c hmem
    by_cases hsame : ftok c.curItem.dirpath = ftok dirpath
    · rw [hkey, hsame] at hvalue
      simp only [hsame, if_true] at hcount
      show semval (ftok dirpath) + _ = 1
      omega
    · have hother : ftok dirpath ≠ c.SEMfr := by
        rw [hkey]
        exact fun heq => hsame heq.symm
      simp only [hsame, if_false, Nat.add_zero] at hcount
      rw [hcount]
      show semval (ftok dirpath) + _ = 1
      rw [hframe _ hother]
      exact hold

theorem locked_step {ftok : List UInt8 → κ} (s : State κ) (event : Event) (next : State κ)
    (h : Locked ftok s) (hquiet : Quiet ftok s event)
    (hstep : step ftok s event = some next) : Locked ftok next := by
  cases event with
  | dequeueItem => exact locked_dequeueItem h hquiet hstep
  | fork => exact locked_fork h hstep
  | child i event => exact locked_child h hstep

/-- In a locked state a child that is inside uses up the semaphore. -/
theorem Locked.exclusive {ftok : List UInt8 → κ} {s : State κ} (h : Locked ftok s) :
    MutualExclusion ftok s := by
  intro dirpath
  by_contra hmany
  have hpos : 0 < insideCount ftok s dirpath := by omega
  obtain ⟨c, hc, hin⟩ := List.countP_pos_iff.mp hpos
  simp only [Bool.and_eq_true, decide_eq_true_eq] at hin
  have hone := h.value dirpath (.inl ⟨c, hc, by rw [h.key c hc, hin.2]⟩)
  omega

/-- The child of the item just dequeued passes `waits` when its semaphore is
positive. -/
theorem fork_waits (ftok : List UInt8 → κ) (s : State κ) (item : Item)
    (hcur : s.curItem = some item) (hpos : 0 < s.semval s.SEMfr) :
    run (step ftok) s [.fork, .child s.children.length .waits] = some { s with
      curItem := none
      semval := Function.update s.semval s.SEMfr (s.semval s.SEMfr - 1)
      children := s.children ++ [⟨item, s.SEMfr, .openDir, 1⟩] } := by
  simp [run, step, hcur, childStep, hpos]

/-- Setting up a semaphore that is held lets the next child in as well. -/
theorem not_quiet_breaks {ftok : List UInt8 → κ} {s next : State κ}
    (hnot : ¬ Quiet ftok s .dequeueItem) (hstep : step ftok s .dequeueItem = some next) :
    ∃ schedule t, run (step ftok) next schedule = some t ∧
      Along (step ftok) (Quiet ftok) next schedule ∧ ¬ MutualExclusion ftok t := by
  obtain ⟨item, rest, hreq, hcur, rfl⟩ := dequeueItem_cases hstep
  have hheld : insideCount ftok s item.dirpath ≠ 0 := by
    intro hzero
    apply hnot
    intro other hother
    simp only [hreq, List.head?_cons, Option.mem_some_iff] at hother
    rw [← hother]
    exact hzero
  refine ⟨_, _, fork_waits ftok _ item rfl ?_, ?_, ?_⟩
  · simp [semIni]
  · exact ⟨trivial, fun _ _ => ⟨trivial, fun _ _ => trivial⟩⟩
  · intro hexcl
    have hone := hexcl item.dirpath
    have hsame := insideCount_semIni ftok
      { s with requests := rest, curItem := some item, SEMfr := ftok item.dirpath }
      (ftok item.dirpath) 1 item.dirpath
    unfold insideCount at hone hsame hheld
    rw [List.countP_append, hsame] at hone
    simp [Child.inside] at hone
    apply hheld
    simpa [Child.inside] using hone

/-- Mutual exclusion holds in every state of every schedule that sets up no
semaphore while a child holds it. Nothing weaker is enough: where `dequeueItem`
is called for a directory that a child is inside of, exclusion can be lost
although all later calls keep to the rule. -/
theorem exclusion_iff_quiet (ftok : List UInt8 → κ) (requests : List Item) (SEMfr : κ)
    (semval : κ → Nat) (schedule : List Event) (s : State κ)
    (hrun : run (step ftok) (start requests SEMfr semval) schedule = some s)
    (hquiet : Along (step ftok) (Quiet ftok) (start requests SEMfr semval) schedule) :
    MutualExclusion ftok s ∧
      ∀ next, step ftok s .dequeueItem = some next →
        ((∀ later t, run (step ftok) next later = some t →
            Along (step ftok) (Quiet ftok) next later → MutualExclusion ftok t) ↔
          Quiet ftok s .dequeueItem) := by
  have hlocked : Locked ftok s :=
    run_invariant_along locked_step (locked_start ftok requests SEMfr semval) hquiet hrun
  refine ⟨hlocked.exclusive, fun next hstep => ⟨?_, ?_⟩⟩
  · intro hall
    by_contra hnot
    obtain ⟨later, t, hlater, halong, hbreak⟩ := not_quiet_breaks hnot hstep
    exact hbreak (hall later t hlater halong)
  · intro hq later t hlater halong
    exact (run_invariant_along locked_step (locked_step s _ next hlocked hq hstep)
      halong hlater).exclusive

/-- The semaphore of a directory named twice, set up again after the first
child has given it back. -/
theorem exclusion_iff_quiet_repeated :
    ∃ s, run (step id) (start [⟨text "/d", text "is"⟩, ⟨text "/d", text "a"⟩] [] fun _ => 0)
        [.dequeueItem, .fork, .child 0 .waits, .child 0 (.openDir true), .child 0 .signals,
          .dequeueItem, .fork, .child 1 .waits] = some s ∧
      MutualExclusion id s := by
  obtain ⟨s, hs⟩ := Option.isSome_iff_exists.mp (show (run (step id)
    (start [⟨text "/d", text "is"⟩, ⟨text "/d", text "a"⟩] [] fun _ => 0)
    [.dequeueItem, .fork, .child 0 .waits, .child 0 (.openDir true), .child 0 .signals,
      .dequeueItem, .fork, .child 1 .waits]).isSome = true by decide)
  refine ⟨s, hs, (exclusion_iff_quiet id _ _ _ _ s hs ?_).1⟩
  simp [Along, Quiet, step, start, semIni, childStep, insideCount, Child.inside]

/-- Two requests for one directory: the second `dequeueItem` sets the semaphore
that the first child holds back to one. -/
theorem second_dequeue_lets_both_in :
    ∃ s, run (step id) (start [⟨text "/d", text "is"⟩, ⟨text "/d", text "a"⟩] [] fun _ => 0)
        [.dequeueItem, .fork, .child 0 .waits, .dequeueItem, .fork, .child 1 .waits] = some s ∧
      ¬ MutualExclusion id s := by
  have hcount : (run (step id)
      (start [⟨text "/d", text "is"⟩, ⟨text "/d", text "a"⟩] [] fun _ => 0)
      [.dequeueItem, .fork, .child 0 .waits, .dequeueItem, .fork, .child 1 .waits]).map
      (insideCount id · (text "/d")) = some 2 := by decide
  obtain ⟨s, hs, htwo⟩ := Option.map_eq_some_iff.mp hcount
  refine ⟨s, hs, ?_⟩
  intro hexcl
  have hone := hexcl (text "/d")
  omega

end Cse420.Server.DirLock
