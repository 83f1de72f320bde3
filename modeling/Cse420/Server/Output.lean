import Cse420.Lib.Machine
import Cse420.Lib.SysVSem
import Cse420.Queue.Segment
import Cse420.Server.SearchTest

/-!
How the results of `server.c` get into `output.txt`. Each request has a child,
each file of its directory has a thread of that child, and every thread appends
its result between `waits(SEMbuf)` and `signals(SEMbuf)`. The bytes of a result
may reach the file in pieces.
-/

namespace Cse420.Server.Output

open CMemory Lister Machine SysVSem
open Queue (Item)

/-- The identifiers of `SEMbuf` and, by directory, of `SEMfr`. The keys are
different: those of `ftok` are -1 or have an `E` in their highest byte. -/
structure Ids (κ : Type) where
  SEMbuf : κ
  SEMfr : List UInt8 → κ
  apart : ∀ dirpath, SEMfr dirpath ≠ SEMbuf

inductive WorkerPc where
  | searchTest
  /-- In `fileWriter` before `waits(SEMbuf)`, with the result. -/
  | waits (result : List UInt8)
  /-- `output.txt` is open: what is written and what is still in the buffer. -/
  | write (written rest : List UInt8)
  | exited
  deriving DecidableEq

/-- A thread with its own `Item`. -/
structure Worker where
  item : Item
  pc : WorkerPc

inductive ChildPc where
  | waits
  | opendir
  /-- In the loop of `openDir`, with the entries it has not seen yet. -/
  | readdir (rest : List Dirent)
  | signals
  | joinThreads
  | exited
  deriving DecidableEq

/-- A child with its threads; all of them share its adjustments. -/
structure Child (κ : Type) where
  curItem : Item
  pc : ChildPc
  workers : List Worker
  semadj : κ → Int

/-- `overrun` stands for a store behind the end of a block; nothing is said of
what follows it. -/
structure State (κ : Type) where
  requests : List Item
  curItem : Option Item
  semval : κ → Nat
  children : List (Child κ)
  output : List UInt8
  overrun : Bool

inductive ChildEvent where
  | waits
  | opendir
  | readdir
  | signals
  | exit

inductive WorkerEvent where
  | searchTest
  | waits
  /-- The next `n` bytes reach the file. -/
  | write (n : Nat)
  | signals

inductive Event where
  | dequeueItem
  | fork
  | child (i : Nat) (event : ChildEvent)
  | worker (i j : Nat) (event : WorkerEvent)

def MAXDIRPATH : Nat := 1024

/-- The length of `tids`. -/
def MAXTHREADS : Nat := 20

/-- The entries `openDir` starts a thread for. -/
def Dirent.works (entry : Dirent) : Bool := !entry.hidden && entry.dType ≠ 4

section Model

variable {κ : Type} [DecidableEq κ]

/-- The loop of `openDir` at one entry: `abspath` has `MAXDIRPATH` bytes and
`tids` has room for `MAXTHREADS` threads. No result stands for an overrun.
`pthread_create` is taken to succeed, and no file changes between this and the
thread's search. -/
def readdirStep (c : Child κ) (entry : Dirent) (rest : List Dirent) : Option (Child κ) :=
  if Dirent.works entry then
    let abspath := join c.curItem.dirpath entry.dName
    if abspath.length + 1 ≤ MAXDIRPATH ∧ c.workers.length < MAXTHREADS then
      some { c with
        pc := .readdir rest
        workers := c.workers ++ [⟨⟨abspath, c.curItem.keyword⟩, .searchTest⟩] }
    else none
  else some { c with pc := .readdir rest }

/-- `exit` of a child. -/
def childExit (s : State κ) (i : Nat) (c : Child κ) : State κ :=
  { s with
    semval := undo s.semval c.semadj
    children := s.children.set i { c with pc := .exited, semadj := fun _ => 0 } }

def childStep (ids : Ids κ) (fs : FileSystem) (s : State κ) (i : Nat) (c : Child κ) :
    ChildEvent → Option (State κ)
  | .waits =>
      if c.pc = .waits then
        (SysVSem.waits (ids.SEMfr c.curItem.dirpath) s.semval c.semadj).map fun (semval, semadj) =>
          { s with semval, children := s.children.set i { c with pc := .opendir, semadj } }
      else none
  | .opendir =>
      if c.pc = .opendir then
        match fs.opendir c.curItem.dirpath with
        | none => some (childExit s i c)
        | some entries =>
            some { s with children := s.children.set i { c with pc := .readdir entries } }
      else none
  | .readdir =>
      match c.pc with
      | .readdir [] => some { s with children := s.children.set i { c with pc := .signals } }
      | .readdir (entry :: rest) =>
          match readdirStep c entry rest with
          | none => some { s with overrun := true }
          | some c => some { s with children := s.children.set i c }
      | _ => none
  | .signals =>
      if c.pc = .signals then
        let (semval, semadj) :=
          SysVSem.signals (ids.SEMfr c.curItem.dirpath) s.semval c.semadj
        some { s with semval, children := s.children.set i { c with pc := .joinThreads, semadj } }
      else none
  | .exit =>
      if c.pc = .joinThreads ∧ ∀ w ∈ c.workers, w.pc = .exited then some (childExit s i c) else none

/-- The thread at its next place. -/
def setWorker (s : State κ) (i : Nat) (c : Child κ) (j : Nat) (w : Worker) : State κ :=
  { s with children := s.children.set i { c with workers := c.workers.set j w } }

def workerStep (ids : Ids κ) (fs : FileSystem) (s : State κ) (i : Nat) (c : Child κ) (j : Nat)
    (w : Worker) : WorkerEvent → Option (State κ)
  | .searchTest =>
      if w.pc = .searchTest then
        match SearchTest.searchTest fs w.item.dirpath w.item.keyword with
        | none => some { s with overrun := true }
        | some none => some (setWorker s i c j { w with pc := .exited })
        | some (some result) => some (setWorker s i c j { w with pc := .waits result })
      else none
  | .waits =>
      match w.pc with
      | .waits result =>
          (SysVSem.waits ids.SEMbuf s.semval c.semadj).map fun (semval, semadj) =>
            setWorker { s with semval } i { c with semadj } j { w with pc := .write [] result }
      | _ => none
  | .write n =>
      match w.pc with
      | .write written rest =>
          some { setWorker s i c j
              { w with pc := .write (written ++ rest.take n) (rest.drop n) } with
            output := s.output ++ rest.take n }
      | _ => none
  | .signals =>
      match w.pc with
      | .write _ [] =>
          let (semval, semadj) := SysVSem.signals ids.SEMbuf s.semval c.semadj
          some (setWorker { s with semval } i { c with semadj } j { w with pc := .exited })
      | _ => none

/-- `sem_ini(SEMfr, 1)` of `dequeueItem`. -/
def semIni (semid : κ) (val : Nat) (s : State κ) : State κ :=
  { s with
    semval := Function.update s.semval semid val
    children := s.children.map fun c => { c with semadj := Function.update c.semadj semid 0 } }

/-- One step of the server, of a child or of a thread. -/
def step (ids : Ids κ) (fs : FileSystem) (s : State κ) (event : Event) : Option (State κ) :=
  if s.overrun then none
  else
    match event with
    | .dequeueItem =>
        match s.requests, s.curItem with
        | item :: rest, none =>
            some (semIni (ids.SEMfr item.dirpath) 1
              { s with requests := rest, curItem := some item })
        | _, _ => none
    | .fork =>
        s.curItem.map fun item =>
          { s with
            curItem := none
            children := s.children ++ [⟨item, .waits, [], fun _ => 0⟩] }
    | .child i event => do
        let c ← s.children[i]?
        childStep ids fs s i c event
    | .worker i j event => do
        let c ← s.children[i]?
        let w ← c.workers[j]?
        workerStep ids fs s i c j w event

/-- `main` before its loop: `output.txt` is removed and `SEMbuf` set to one. -/
def start (ids : Ids κ) (requests : List Item) (semval : κ → Nat) : State κ :=
  ⟨requests, none, Function.update semval ids.SEMbuf 1, [], [], false⟩

/-- All requests have had their child, and all children have exited. -/
def Finished (s : State κ) : Prop :=
  s.requests = [] ∧ s.curItem = none ∧ ∀ c ∈ s.children, c.pc = .exited

/-- The files of a request: the thread's item for each. -/
def itemFiles (item : Item) (entries : List Dirent) : List Item :=
  (entries.filter Dirent.works).map fun entry =>
    ⟨join item.dirpath entry.dName, item.keyword⟩

def files (fs : FileSystem) (item : Item) : List Item :=
  itemFiles item ((fs.opendir item.dirpath).getD [])

/-- The result of a file that is readable. -/
def result (fs : FileSystem) (item : Item) : Option (List UInt8) :=
  (SearchTest.searchTest fs item.dirpath item.keyword).join

/-- One result for each pair of a request and a readable file. -/
def expected (fs : FileSystem) (requests : List Item) : List (List UInt8) :=
  (requests.flatMap (files fs)).filterMap (result fs)

/-- No store leaves its block, and in the end the file holds the results one
after the other, each of them once. -/
def Collects (ids : Ids κ) (fs : FileSystem) (requests : List Item) (semval : κ → Nat) : Prop :=
  ∀ schedule t, run (step ids fs) (start ids requests semval) schedule = some t →
    t.overrun = false ∧
      (Finished t → ∃ results : List (List UInt8), results.Perm (expected fs requests) ∧
        t.output = results.flatten)

/-- The path of every file of a requested directory fits its block. -/
def PathsFit (fs : FileSystem) (requests : List Item) : Prop :=
  ∀ item ∈ requests, ∀ file ∈ files fs item, file.dirpath.length + 1 ≤ MAXDIRPATH

end Model

end Cse420.Server.Output
