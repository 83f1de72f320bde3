import Cse420.Queue.ReadFile
import Cse420.Server.Exit
import Cse420.Server.OutputCompletes

/-!
`server.c` and any number of runs of `client.c` as one system. The clients take
`SEMrq` in turn and append what their files ask for, line by line; `main` polls
the segment without a semaphore, takes the requests out and forks a child for
each; the children and their threads work as in `Output`. A call of `AddReq`, of
`charcount`, of `strstr` and of `dequeueItem` is one step here.
-/

namespace Cse420.Server.System

open CMemory Lister Machine SysVSem Queue
open Exit (MainPc)

/-- What the programs get from the system: the identifiers of the semaphores, which
differ as their keys do, and the blocks of `malloc` in a client. -/
structure Host (κ : Type) extends Output.Ids κ where
  SEMrq : κ
  malloc : Malloc
  rq_buf : SEMrq ≠ SEMbuf
  rq_fr : ∀ dirpath, SEMfr dirpath ≠ SEMrq

/-- What a client is called with. With a second argument the first one is only
stored in `bufSIZE`. -/
inductive Args where
  | exit
  | noArgs
  | file (path : List UInt8)

inductive ClientPc where
  | waits
  /-- Behind `waits(SEMrq)`, before the branch on `argc`. -/
  | branch
  /-- In the loop of `readfile`, with what is left of the file and the buffer. -/
  | readfile (rest : List UInt8) (buffer : Mem)
  | signals
  | exited

/-- A client; `buffer` is what the array of `readfile` holds before it is used. -/
structure Client (κ : Type) where
  args : Args
  buffer : Mem
  pc : ClientPc
  semadj : κ → Int

/-- Where a forked child is: before its own test of the segment, behind it in
`ChildsPlay`, or behind it at its end. -/
inductive Stage where
  | childTest
  | childsPlay
  | dropped
  deriving DecidableEq

/-- `processes` holds the semaphores, `curItem`, the children with their threads
and `output.txt`; its list of requests is empty, since the requests are in the
segment. `stages` has an entry for each child. `added` is no variable of the
program: it records what the clients appended. -/
structure State (κ : Type) where
  clients : List (Client κ)
  server : Server
  pc : MainPc
  semadj : κ → Int
  stages : List Stage
  processes : Output.State κ
  added : List (List UInt8)

inductive ClientEvent where
  | waits
  | branch
  | fgets
  | signals

inductive ChildEvent where
  | test
  | play (event : Output.ChildEvent)

inductive Event where
  | client (i : Nat) (event : ClientEvent)
  /-- `main` goes on; `block` is what `malloc` returns if it is asked. -/
  | main (block : Mem)
  | child (i : Nat) (event : ChildEvent)
  | worker (i j : Nat) (event : Output.WorkerEvent)

/-- The default of `main` in `client.c`. -/
def inputFile2 : List UInt8 := text "./inputFile2.dat"

/-- The file `readfile` is called with. -/
def Args.path : Args → Option (List UInt8)
  | .exit => none
  | .noArgs => some inputFile2
  | .file path => some path

/-- The file `readfile` opens; a directory is not opened, and neither is a file
that is not there. -/
def openInput (fs : FileSystem) (path : List UInt8) : Option (List UInt8) :=
  if (fs.opendir path).isSome then none else fs.fopen path

section Model

variable {κ : Type} [DecidableEq κ]

/-- A store or a read outside of its block, or a null pointer: nothing is said
of what follows. -/
def State.fault (s : State κ) : State κ :=
  { s with processes := { s.processes with overrun := true } }

/-- The state after an operation that may go wrong. -/
def State.checked {α : Type} (s : State κ) (done : Option α) (next : α → State κ) : State κ :=
  match done with
  | none => s.fault
  | some a => next a

def State.setClient (s : State κ) (i : Nat) (c : Client κ) : State κ :=
  { s with clients := s.clients.set i c }

def State.setSemval (s : State κ) (semval : κ → Nat) : State κ :=
  { s with processes := { s.processes with semval } }

/-- `AddReq`. -/
def State.addReq (s : State κ) (request : List UInt8) : State κ :=
  s.checked (Queue.addReq s.server.shm request) fun shm =>
    { s with server := { s.server with shm }, added := s.added ++ [request] }

/-- One turn of the loop of `readfile`, up to the call of `AddReq`. -/
def readTurn (malloc : Malloc) (file : List UInt8) (buffer : Mem) :
    Option (Mem × List UInt8) := do
  let buffer ← storeAll buffer 0 ((fgets 1023 file).1 ++ [0])
  readRequest malloc buffer

def clientStep (host : Host κ) (fs : FileSystem) (s : State κ) (i : Nat) (c : Client κ) :
    ClientEvent → Option (State κ)
  | .waits =>
      match c.pc with
      | .waits =>
          (SysVSem.waits host.SEMrq s.processes.semval c.semadj).map fun (semval, semadj) =>
            (s.setSemval semval).setClient i { c with pc := .branch, semadj }
      | _ => none
  | .branch =>
      match c.pc with
      | .branch =>
          match c.args.path with
          | none => some ((s.addReq exitReq).setClient i { c with pc := .signals })
          | some path =>
              match openInput fs path with
              | none => some (s.setClient i { c with pc := .signals })
              | some file => some (s.setClient i { c with pc := .readfile file c.buffer })
      | _ => none
  | .fgets =>
      match c.pc with
      | .readfile [] _ => some (s.setClient i { c with pc := .signals })
      | .readfile (b :: file) buffer =>
          some (s.checked (readTurn host.malloc (b :: file) buffer) fun (buffer, request) =>
            (s.addReq request).setClient i
              { c with pc := .readfile (fgets 1023 (b :: file)).2 buffer })
      | _ => none
  | .signals =>
      match c.pc with
      | .signals =>
          let (semval, semadj) := SysVSem.signals host.SEMrq s.processes.semval c.semadj
          some ((s.setSemval (undo semval semadj)).setClient i
            { c with pc := .exited, semadj := fun _ => 0 })
      | _ => none

/-- `sem_ini(SEMfr, 1)` of `dequeueItem`: no process has anything to undo. -/
def State.semIni (s : State κ) (semid : κ) (val : Nat) : State κ :=
  { s with
    processes := Output.semIni semid val s.processes
    semadj := Function.update s.semadj semid 0
    clients := s.clients.map fun c => { c with semadj := Function.update c.semadj semid 0 } }

/-- `return 0` of `main` in the server. -/
def State.returns (s : State κ) : State κ :=
  { s.setSemval (undo s.processes.semval s.semadj) with pc := .returned, semadj := fun _ => 0 }

/-- A process that goes on with the request in `curItem`. -/
def State.forks (s : State κ) (item : Item) (stage : Stage) (semadj : κ → Int) (pc : MainPc) :
    State κ :=
  { s with
    pc
    stages := s.stages ++ [stage]
    processes := { s.processes with
      curItem := none
      children := s.processes.children ++ [⟨item, .waits, [], semadj⟩] } }

/-- The test for the exit command and the two ways on. -/
def State.test (s : State κ) (stay leave : MainPc) : State κ :=
  s.checked (noExit s.server.shm) fun none => { s with pc := if none then stay else leave }

/-- Some child has ended. -/
def State.anyEnded (s : State κ) : Bool :=
  s.stages.any (· = .dropped) || s.processes.children.any (·.pc = .exited)

/-- One step of `main` in the server, as in `Exit`. -/
def mainStep (host : Host κ) (block : Mem) (s : State κ) : Option (State κ) :=
  match s.pc with
  | .loopTest => some (s.test .count .forkTest)
  | .count =>
      some (s.checked (charcount s.server.shm) fun n =>
        { s with pc := if 1 < n then .retest else .loopTest })
  | .retest => some (s.test .dequeue .forkTest)
  | .dequeue =>
      if block.length = 1024 then
        some (s.checked (dequeueItem block s.server) fun (item, server) =>
          { s with
            server
            pc := .forkTest
            processes := { s.processes with curItem := some item } }.semIni
              (host.SEMfr item.dirpath) 1)
      else none
  | .forkTest => some (s.test .fork .childTest)
  | .fork =>
      some (s.checked s.processes.curItem fun item =>
        s.forks item .childTest (fun _ => 0) .parentTest)
  | .childTest =>
      some (s.checked (noExit s.server.shm) fun none =>
        -- the server itself would call `ChildsPlay`
        if none then s.checked s.processes.curItem fun item =>
          s.forks item .childsPlay s.semadj .exited
        else s.returns)
  | .parentTest => some (s.test .loopTest .wait)
  | .wait => if s.anyEnded then some s.returns else none
  | .returned => none
  | .exited => none

/-- One step of a client, of `main`, of a child or of a thread. -/
def step (host : Host κ) (fs : FileSystem) (s : State κ) (event : Event) : Option (State κ) :=
  if s.processes.overrun then none
  else
    match event with
    | .client i event => do
        let c ← s.clients[i]?
        clientStep host fs s i c event
    | .main block => mainStep host block s
    | .child i .test =>
        if s.stages[i]? = some .childTest then
          some (s.checked (noExit s.server.shm) fun none =>
            { s with stages := s.stages.set i (if none then .childsPlay else .dropped) })
        else none
    | .child i (.play event) =>
        if s.stages[i]? = some .childsPlay then
          (Output.step host.toIds fs s.processes (.child i event)).map fun processes =>
            { s with processes }
        else none
    | .worker i j event =>
        if s.stages[i]? = some .childsPlay then
          (Output.step host.toIds fs s.processes (.worker i j event)).map fun processes =>
            { s with processes }
        else none

/-- `main` of the server after its set-up of a fresh segment, and clients that
have attached it. `init_shm` posts `SEMrq`, which the server has to take back. -/
def start (host : Host κ) (calls : List (Args × Mem)) (semval : κ → Nat) : Option (State κ) :=
  (initShm (List.replicate rqSIZE 0)).map fun server =>
    { clients := calls.map fun (args, buffer) => ⟨args, buffer, .waits, fun _ => 0⟩
      server
      pc := .loopTest
      semadj := Function.update (fun _ => 0) host.SEMrq (-1)
      stages := []
      processes := Output.start host.toIds [] (Function.update semval host.SEMrq 1)
      added := [] }

end Model

end Cse420.Server.System
