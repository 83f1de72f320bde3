import Cse420.Lib.Machine
import Cse420.Lib.SysVSem

/-!
The lock of the request queue in `server-rev1.c` and `client-rev1.c`. A client
adds its requests between `waits(SEMrq)` and `signals(SEMrq)`. The children of
the server use semaphores of their own; three of them, `fullbuf`, `emptybuf`
and `mutexbuf`, are set up under the identifier zero, because the globals never
get a result of `semget`.
-/

namespace Cse420.Server.ClientLock

open Machine SysVSem

/-- What the kernel hands out: one identifier for each key, zero included. A key
of `ftok` is -1 or has the `E` of its second argument in the highest byte. -/
structure Kernel where
  semget : Int → Nat
  ftok : List UInt8 → Int
  distinct : Function.Injective semget
  ftok_key : ∀ path, ftok path ≠ 0x7070

def Kernel.SEMrq (k : Kernel) : Nat := k.semget 0x7070

def Kernel.SEMbuf (k : Kernel) : Nat := k.semget 0x7171

def Kernel.filelock (k : Kernel) : Nat := k.semget 0x8181

/-- `semget(ftok(dirpath, 'E'))` of `dequeueItem`. -/
def Kernel.SEMfr (k : Kernel) (dirpath : List UInt8) : Nat := k.semget (k.ftok dirpath)

/-- `int fullbuf=0,emptybuf=0,mutexbuf=0;` -/
def fullbuf : Nat := 0

def emptybuf : Nat := 0

def mutexbuf : Nat := 0

inductive ClientPc where
  | waits
  /-- Between `waits(SEMrq)` and `signals(SEMrq)`. -/
  | addReq
  | returns
  | exited
  deriving DecidableEq

structure Client where
  pc : ClientPc
  semadj : Nat → Int

inductive ChildPc where
  | iniFull
  | iniEmpty
  | iniMutex
  | waits
  | openDir
  | signals
  | joinThreads
  | exited
  deriving DecidableEq

/-- The printer thread of a child, in or outside `fileWriter`. -/
inductive PrinterPc where
  | getitem
  | fileWriter
  | exited
  deriving DecidableEq

/-- A child in `ChildsPlay`. Its worker threads use no System V semaphore. -/
structure Child where
  SEMfr : Nat
  pc : ChildPc
  printer : PrinterPc
  semadj : Nat → Int

/-- The server after `init_shm`: before it sets up `SEMbuf`, in its loop, with an
item for the next child, or at its end. -/
inductive ServerPc where
  | iniBuf
  | polling
  | fork
  | exited
  deriving DecidableEq

/-- The directories of the requests in the queue stand for the segment. -/
structure State where
  semval : Nat → Nat
  requests : List (List UInt8)
  server : ServerPc
  SEMfr : Nat
  semadj : Nat → Int
  clients : List Client
  children : List Child

/-- `sem_ini`: `semctl` with `SETVAL`. -/
def semIni (semid : Nat) (val : Int) (s : State) : State :=
  if InRange val then
    { s with
      semval := Function.update s.semval semid val.toNat
      semadj := Function.update s.semadj semid 0
      clients := s.clients.map fun c => { c with semadj := Function.update c.semadj semid 0 }
      children := s.children.map fun c => { c with semadj := Function.update c.semadj semid 0 } }
  else s

inductive ClientEvent where
  | waits
  | addReq (dirpath : List UInt8)
  | signals
  /-- `main` returns, or the client is killed. -/
  | exit

inductive ChildEvent where
  | iniFull
  | iniEmpty
  | iniMutex
  | waits
  /-- `opendir` succeeds, or it fails and `openDir` calls `exit(-1)`. -/
  | openDir (opens : Bool)
  | signals
  | printerWaits
  | printerSignals
  | printerExit
  /-- `exit(1)`, the return of a child that sees the exit command first, or its
  death at any place. -/
  | exit

inductive Event where
  | iniBuf
  | dequeueItem
  | fork
  | serverExit
  | client (i : Nat) (event : ClientEvent)
  | child (i : Nat) (event : ChildEvent)

def clientStep (k : Kernel) (s : State) (i : Nat) (c : Client) : ClientEvent → Option State
  | .waits =>
      if c.pc = .waits then
        (SysVSem.waits k.SEMrq s.semval c.semadj).map fun (semval, semadj) =>
          { s with semval, clients := s.clients.set i ⟨.addReq, semadj⟩ }
      else none
  | .addReq dirpath =>
      if c.pc = .addReq then some { s with requests := s.requests ++ [dirpath] } else none
  | .signals =>
      if c.pc = .addReq then
        let (semval, semadj) := SysVSem.signals k.SEMrq s.semval c.semadj
        some { s with semval, clients := s.clients.set i ⟨.returns, semadj⟩ }
      else none
  | .exit =>
      if c.pc ≠ .exited then
        some { s with
          semval := undo s.semval c.semadj
          clients := s.clients.set i ⟨.exited, fun _ => 0⟩ }
      else none

/-- The end of a child, with all its threads. -/
def childExit (s : State) (i : Nat) (c : Child) : State :=
  { s with
    semval := undo s.semval c.semadj
    children := s.children.set i { c with pc := .exited, semadj := fun _ => 0 } }

def childStep (k : Kernel) (BUFFERSIZE : Int) (s : State) (i : Nat) (c : Child) :
    ChildEvent → Option State
  | .iniFull =>
      if c.pc = .iniFull then
        some (semIni fullbuf 0 { s with children := s.children.set i { c with pc := .iniEmpty } })
      else none
  | .iniEmpty =>
      if c.pc = .iniEmpty then
        some (semIni emptybuf BUFFERSIZE
          { s with children := s.children.set i { c with pc := .iniMutex } })
      else none
  | .iniMutex =>
      if c.pc = .iniMutex then
        some (semIni mutexbuf 1 { s with children := s.children.set i { c with pc := .waits } })
      else none
  | .waits =>
      if c.pc = .waits then
        (SysVSem.waits c.SEMfr s.semval c.semadj).map fun (semval, semadj) =>
          { s with semval, children := s.children.set i { c with pc := .openDir, semadj } }
      else none
  | .openDir opens =>
      if c.pc = .openDir then
        if opens then some { s with children := s.children.set i { c with pc := .signals } }
        else some (childExit s i c)
      else none
  | .signals =>
      if c.pc = .signals then
        let (semval, semadj) := SysVSem.signals c.SEMfr s.semval c.semadj
        some { s with semval, children := s.children.set i { c with pc := .joinThreads, semadj } }
      else none
  | .printerWaits =>
      -- the thread is created behind waits(SEMfr)
      if c.printer = .getitem ∧ (c.pc = .openDir ∨ c.pc = .signals ∨ c.pc = .joinThreads) then
        (SysVSem.waits k.SEMbuf s.semval c.semadj).map fun (semval, semadj) =>
          { s with semval, children := s.children.set i { c with printer := .fileWriter, semadj } }
      else none
  | .printerSignals =>
      if c.printer = .fileWriter ∧ c.pc ≠ .exited then
        let (semval, semadj) := SysVSem.signals k.SEMbuf s.semval c.semadj
        some { s with
          semval, children := s.children.set i { c with printer := .getitem, semadj } }
      else none
  | .printerExit =>
      if c.printer = .getitem ∧ c.pc = .joinThreads then
        some { s with children := s.children.set i { c with printer := .exited } }
      else none
  | .exit => if c.pc ≠ .exited then some (childExit s i c) else none

/-- One step of the server, of a client or of a child. -/
def step (k : Kernel) (BUFFERSIZE : Int) (s : State) : Event → Option State
  | .iniBuf =>
      if s.server = .iniBuf then some (semIni k.SEMbuf 1 { s with server := .polling }) else none
  | .dequeueItem =>
      match s.server, s.requests with
      | .polling, dirpath :: rest =>
          some (semIni (k.SEMfr dirpath) 1
            { s with requests := rest, server := .fork, SEMfr := k.SEMfr dirpath })
      | _, _ => none
  | .fork =>
      -- a child starts with adjustments of its own
      if s.server = .fork then
        some { s with
          server := .polling
          children := s.children ++ [⟨s.SEMfr, .iniFull, .getitem, fun _ => 0⟩] }
      else none
  | .serverExit =>
      if s.server = .polling ∨ s.server = .fork then
        some { s with server := .exited, semval := undo s.semval s.semadj }
      else none
  | .client i event => do
      let c ← s.clients[i]?
      clientStep k s i c event
  | .child i event => do
      let c ← s.children[i]?
      childStep k BUFFERSIZE s i c event

/-- What `init_shm` leaves, over values of earlier runs, with `n` clients that
have not yet asked for the queue. -/
def start (k : Kernel) (n : Nat) (semval : Nat → Nat) : State :=
  let s : State := ⟨semval, [], .iniBuf, 0, fun _ => 0, List.replicate n ⟨.waits, fun _ => 0⟩, []⟩
  let s := semIni k.filelock 0 (semIni k.SEMrq 0 s)
  let (semval, semadj) := SysVSem.signals k.SEMrq s.semval s.semadj
  { s with semval, semadj }

def Client.inside (c : Client) : Bool := c.pc = .addReq

/-- The clients between `waits(SEMrq)` and `signals(SEMrq)`. -/
def insideCount (s : State) : Nat := s.clients.countP Client.inside

/-- A step of a child, or of the server before its end. -/
def Foreign : Event → Prop
  | .client _ _ => False
  | .serverExit => False
  | _ => True

/-- In every reachable state at most one client is inside, and no step of the
server or a child changes the value of `SEMrq`. -/
def Excludes (k : Kernel) (BUFFERSIZE : Int) : Prop :=
  ∀ n semval schedule t, run (step k BUFFERSIZE) (start k n semval) schedule = some t →
    insideCount t ≤ 1 ∧
      ∀ event next, Foreign event → step k BUFFERSIZE t event = some next →
        next.semval k.SEMrq = t.semval k.SEMrq

@[simp] theorem semIni_server (semid : Nat) (val : Int) (s : State) :
    (semIni semid val s).server = s.server := by
  unfold semIni
  split <;> rfl

@[simp] theorem semIni_SEMfr (semid : Nat) (val : Int) (s : State) :
    (semIni semid val s).SEMfr = s.SEMfr := by
  unfold semIni
  split <;> rfl

section Guarded

variable {k : Kernel}

theorem SEMfr_ne (k : Kernel) (dirpath : List UInt8) : k.SEMfr dirpath ≠ k.SEMrq :=
  fun h => k.ftok_key dirpath (k.distinct h)

theorem SEMbuf_ne (k : Kernel) : k.SEMbuf ≠ k.SEMrq := by
  intro h
  have hkey := k.distinct h
  omega

theorem filelock_ne (k : Kernel) : k.filelock ≠ k.SEMrq := by
  intro h
  have hkey := k.distinct h
  omega

/-- A child that has nothing to do with `SEMrq`. -/
structure Apart (k : Kernel) (c : Child) : Prop where
  fr : c.SEMfr ≠ k.SEMrq
  adj : c.semadj k.SEMrq = 0

/-- The invariant: `SEMrq` counts the client it lets in next, a client would give
back what it holds, and nobody else has a part in it. -/
structure Guarded (k : Kernel) (s : State) : Prop where
  bound : s.semval k.SEMrq + insideCount s ≤ 1
  value : s.server = .exited ∨ s.semval k.SEMrq + insideCount s = 1
  clients : ∀ c ∈ s.clients, c.semadj k.SEMrq = c.inside.toNat
  children : ∀ c ∈ s.children, Apart k c
  fr : s.SEMfr ≠ k.SEMrq
  adj : s.semadj k.SEMrq ≤ 0

/-- What is seen of a state from the side of `SEMrq`. -/
def rqView (k : Kernel) (s : State) : Nat × List (ClientPc × Int) :=
  (s.semval k.SEMrq, s.clients.map fun c => (c.pc, c.semadj k.SEMrq))

theorem insideCount_view (k : Kernel) (s : State) :
    insideCount s = (rqView k s).2.countP fun c => c.1 = .addReq := by
  simp only [insideCount, rqView, List.countP_map]
  rfl

/-- What a step of somebody else leaves alone. -/
structure Keeps (k : Kernel) (s next : State) : Prop where
  view : rqView k next = rqView k s
  adj : next.semadj k.SEMrq = s.semadj k.SEMrq
  children : (∀ c ∈ s.children, Apart k c) → ∀ c ∈ next.children, Apart k c

theorem Keeps.trans {s mid next : State} (h : Keeps k s mid) (h' : Keeps k mid next) :
    Keeps k s next where
  view := h'.view.trans h.view
  adj := h'.adj.trans h.adj
  children := fun hs => h'.children (h.children hs)

theorem keeps_fields (s : State) (requests : List (List UInt8)) (server : ServerPc)
    (SEMfr : Nat) : Keeps k s { s with requests, server, SEMfr } :=
  ⟨rfl, rfl, id⟩

/-- `SETVAL` on another semaphore. -/
theorem keeps_semIni (s : State) {semid : Nat} (val : Int) (hne : k.SEMrq ≠ semid) :
    Keeps k s (semIni semid val s) := by
  unfold semIni
  split
  · constructor
    · simp [rqView, Function.update_of_ne hne]
    · exact Function.update_of_ne hne ..
    · intro h c hc
      obtain ⟨d, hd, rfl⟩ := List.mem_map.mp hc
      refine ⟨(h d hd).fr, ?_⟩
      rw [← (h d hd).adj]
      exact Function.update_of_ne hne ..
  · exact ⟨rfl, rfl, fun h => h⟩

/-- A child moves, and the value of `SEMrq` stays. -/
theorem keeps_set (s : State) {semval : Nat → Nat} (i : Nat) {c : Child} (hc : Apart k c)
    (hvalue : semval k.SEMrq = s.semval k.SEMrq) :
    Keeps k s { s with semval, children := s.children.set i c } where
  view := by simp [rqView, hvalue]
  adj := rfl
  children := by
    intro h d hd
    rcases List.mem_or_eq_of_mem_set hd with hd | rfl
    · exact h d hd
    · exact hc

theorem keeps_childExit (s : State) (i : Nat) {c : Child} (hc : Apart k c) :
    Keeps k s (childExit s i c) :=
  keeps_set s i ⟨hc.fr, rfl⟩ (undo_zero hc.adj)

theorem keeps_waits {s : State} {i semid : Nat} {c next : Child} {after : (Nat → Nat) × (Nat → Int)}
    (hc : Apart k c) (hne : k.SEMrq ≠ semid)
    (hwaits : SysVSem.waits semid s.semval c.semadj = some after)
    (hfr : next.SEMfr = c.SEMfr) (hadj : next.semadj = after.2) :
    Keeps k s { s with semval := after.1, children := s.children.set i next } := by
  obtain ⟨hvalue, hkept⟩ := waits_frame hwaits hne
  apply keeps_set s i _ hvalue
  exact ⟨by rw [hfr]; exact hc.fr, by rw [hadj, hkept]; exact hc.adj⟩

theorem keeps_signals {s : State} {i semid : Nat} {c next : Child} (hc : Apart k c)
    (hne : k.SEMrq ≠ semid) (hfr : next.SEMfr = c.SEMfr)
    (hadj : next.semadj = (SysVSem.signals semid s.semval c.semadj).2) :
    Keeps k s { s with
      semval := (SysVSem.signals semid s.semval c.semadj).1
      children := s.children.set i next } := by
  obtain ⟨hvalue, hkept⟩ := signals_frame s.semval c.semadj hne
  apply keeps_set s i _ hvalue
  exact ⟨by rw [hfr]; exact hc.fr, by rw [hadj, hkept]; exact hc.adj⟩

/-- A child leaves `SEMrq` alone if its identifier is not zero. -/
theorem childStep_keeps {BUFFERSIZE : Int} {s next : State} {i : Nat} {c : Child}
    {event : ChildEvent} (hrq : k.SEMrq ≠ 0) (hc : Apart k c)
    (hstep : childStep k BUFFERSIZE s i c event = some next) :
    Keeps k s next ∧ next.server = s.server ∧ next.SEMfr = s.SEMfr := by
  have hmoved (pc : ChildPc) (printer : PrinterPc) :
      Keeps k s { s with children := s.children.set i { c with pc, printer } } :=
    keeps_set s i ⟨hc.fr, hc.adj⟩ rfl
  have hini (pc : ChildPc) (val : Int) : Keeps k s
      (semIni 0 val { s with children := s.children.set i { c with pc } }) :=
    (hmoved pc c.printer).trans (keeps_semIni _ val hrq)
  cases event with
  | iniFull =>
      simp only [childStep, Option.ite_none_right_eq_some, Option.some.injEq] at hstep
      obtain ⟨-, rfl⟩ := hstep
      exact ⟨hini .iniEmpty 0, by simp, by simp⟩
  | iniEmpty =>
      simp only [childStep, Option.ite_none_right_eq_some, Option.some.injEq] at hstep
      obtain ⟨-, rfl⟩ := hstep
      exact ⟨hini .iniMutex BUFFERSIZE, by simp, by simp⟩
  | iniMutex =>
      simp only [childStep, Option.ite_none_right_eq_some, Option.some.injEq] at hstep
      obtain ⟨-, rfl⟩ := hstep
      exact ⟨hini .waits 1, by simp, by simp⟩
  | waits =>
      simp only [childStep, Option.ite_none_right_eq_some, Option.map_eq_some_iff] at hstep
      obtain ⟨-, after, hwaits, rfl⟩ := hstep
      exact ⟨keeps_waits hc hc.fr.symm hwaits rfl rfl, rfl, rfl⟩
  | openDir opens =>
      simp only [childStep, Option.ite_none_right_eq_some] at hstep
      obtain ⟨-, hopened⟩ := hstep
      cases opens with
      | true =>
          cases hopened
          exact ⟨hmoved .signals c.printer, rfl, rfl⟩
      | false =>
          cases hopened
          exact ⟨keeps_childExit s i hc, rfl, rfl⟩
  | signals =>
      simp only [childStep, Option.ite_none_right_eq_some, Option.some.injEq] at hstep
      obtain ⟨-, rfl⟩ := hstep
      exact ⟨keeps_signals hc hc.fr.symm rfl rfl, rfl, rfl⟩
  | printerWaits =>
      simp only [childStep, Option.ite_none_right_eq_some, Option.map_eq_some_iff] at hstep
      obtain ⟨-, after, hwaits, rfl⟩ := hstep
      exact ⟨keeps_waits hc (SEMbuf_ne k).symm hwaits rfl rfl, rfl, rfl⟩
  | printerSignals =>
      simp only [childStep, Option.ite_none_right_eq_some, Option.some.injEq] at hstep
      obtain ⟨-, rfl⟩ := hstep
      exact ⟨keeps_signals hc (SEMbuf_ne k).symm rfl rfl, rfl, rfl⟩
  | printerExit =>
      simp only [childStep, Option.ite_none_right_eq_some, Option.some.injEq] at hstep
      obtain ⟨-, rfl⟩ := hstep
      exact ⟨hmoved c.pc .exited, rfl, rfl⟩
  | exit =>
      simp only [childStep, Option.ite_none_right_eq_some, Option.some.injEq] at hstep
      obtain ⟨-, rfl⟩ := hstep
      exact ⟨keeps_childExit s i hc, rfl, rfl⟩

/-- A step of a child, or of the server before its end, keeps what is seen from
`SEMrq`. -/
theorem foreign_keeps {BUFFERSIZE : Int} {s next : State} {event : Event} (hrq : k.SEMrq ≠ 0)
    (h : Guarded k s) (hforeign : Foreign event)
    (hstep : step k BUFFERSIZE s event = some next) :
    Keeps k s next ∧ (s.server = .exited → next.server = .exited) ∧
      next.SEMfr ≠ k.SEMrq := by
  cases event with
  | iniBuf =>
      simp only [step, Option.ite_none_right_eq_some, Option.some.injEq] at hstep
      obtain ⟨hpc, rfl⟩ := hstep
      refine ⟨(keeps_fields s _ _ _).trans (keeps_semIni _ 1 (SEMbuf_ne k).symm), ?_, ?_⟩
      · intro hexited
        rw [hpc] at hexited
        cases hexited
      · simpa using h.fr
  | dequeueItem =>
      simp only [step] at hstep
      split at hstep
      · rename_i dirpath rest hpc hrequests
        cases hstep
        refine ⟨(keeps_fields s _ _ _).trans (keeps_semIni _ 1 (SEMfr_ne k dirpath).symm), ?_, ?_⟩
        · intro hexited
          rw [hpc] at hexited
          cases hexited
        · simpa using SEMfr_ne k dirpath
      · cases hstep
  | fork =>
      simp only [step, Option.ite_none_right_eq_some, Option.some.injEq] at hstep
      obtain ⟨hpc, rfl⟩ := hstep
      refine ⟨⟨rfl, rfl, ?_⟩, ?_, h.fr⟩
      · intro hchildren c hc
        rcases List.mem_append.mp hc with hc | hc
        · exact hchildren c hc
        · rw [List.mem_singleton.mp hc]
          exact ⟨h.fr, rfl⟩
      · intro hexited
        rw [hpc] at hexited
        cases hexited
  | serverExit => cases hforeign
  | client i event => cases hforeign
  | child i event =>
      obtain ⟨c, hi, hchild⟩ := Option.bind_eq_some_iff.mp hstep
      obtain ⟨hkeeps, hserver, hfr⟩ :=
        childStep_keeps hrq (h.children c (List.mem_of_getElem? hi)) hchild
      refine ⟨hkeeps, ?_, ?_⟩
      · rw [hserver]
        exact id
      · rw [hfr]
        exact h.fr

/-- The invariant is about what is seen from `SEMrq`. -/
theorem guarded_keeps {s next : State} (h : Guarded k s) (hkeeps : Keeps k s next)
    (hserver : s.server = .exited → next.server = .exited) (hfr : next.SEMfr ≠ k.SEMrq) :
    Guarded k next := by
  have hvalue : next.semval k.SEMrq = s.semval k.SEMrq := congrArg Prod.fst hkeeps.view
  have hclients := congrArg Prod.snd hkeeps.view
  have hinside : insideCount next = insideCount s := by
    rw [insideCount_view k, insideCount_view k, hkeeps.view]
  constructor
  · rw [hvalue, hinside]
    exact h.bound
  · rw [hvalue, hinside]
    exact h.value.imp_left hserver
  · intro c hc
    have hmem : (c.pc, c.semadj k.SEMrq) ∈ (rqView k s).2 := by
      rw [← hclients]
      exact List.mem_map.mpr ⟨c, hc, rfl⟩
    obtain ⟨d, hd, hsame⟩ := List.mem_map.mp hmem
    obtain ⟨hpc, hadj⟩ := Prod.mk.injEq .. ▸ hsame
    rw [← hadj, h.clients d hd, Client.inside, hpc]
    rfl
  · exact hkeeps.children h.children
  · exact hfr
  · rw [hkeeps.adj]
    exact h.adj

/-- A client moves: what it takes from the value of `SEMrq` it holds, and what it
gives back it held. -/
theorem guarded_set {s : State} {semval : Nat → Nat} {i : Nat} {c next : Client}
    (h : Guarded k s) (hi : s.clients[i]? = some c)
    (hvalue : semval k.SEMrq + next.inside.toNat = s.semval k.SEMrq + c.inside.toNat)
    (hadj : next.semadj k.SEMrq = next.inside.toNat) :
    Guarded k { s with semval, clients := s.clients.set i next } := by
  have hcount := countP_set_add hi next Client.inside
  have hsum : semval k.SEMrq + (s.clients.set i next).countP Client.inside =
      s.semval k.SEMrq + insideCount s := by
    unfold insideCount
    omega
  constructor
  · exact (Nat.le_of_eq hsum).trans h.bound
  · exact h.value.imp_right hsum.trans
  · intro d hd
    rcases List.mem_or_eq_of_mem_set hd with hd | rfl
    · exact h.clients d hd
    · exact hadj
  · exact h.children
  · exact h.fr
  · exact h.adj

theorem guarded_client {s next : State} {i : Nat} {c : Client} {event : ClientEvent}
    (h : Guarded k s) (hi : s.clients[i]? = some c)
    (hstep : clientStep k s i c event = some next) : Guarded k next := by
  have hadj := h.clients c (List.mem_of_getElem? hi)
  have hsmall : s.semval k.SEMrq < SEMVMX := by
    have hbound := h.bound
    unfold SEMVMX
    omega
  cases event with
  | waits =>
      simp only [clientStep, Option.ite_none_right_eq_some, Option.map_eq_some_iff] at hstep
      obtain ⟨hpc, after, hwaits, rfl⟩ := hstep
      obtain ⟨hpos, hafter, hheld⟩ := waits_cases hwaits
      have hout : c.inside = false := by simp [Client.inside, hpc]
      rw [hout] at hadj
      apply guarded_set h hi
      · rw [hafter, hout]
        simp only [Client.inside, decide_true, Bool.toNat_true, Bool.toNat_false]
        omega
      · rw [hadj] at hheld
        exact hheld
  | addReq dirpath =>
      simp only [clientStep, Option.ite_none_right_eq_some, Option.some.injEq] at hstep
      obtain ⟨-, rfl⟩ := hstep
      exact guarded_keeps h (keeps_fields s _ _ _) id h.fr
  | signals =>
      simp only [clientStep, Option.ite_none_right_eq_some, Option.some.injEq] at hstep
      obtain ⟨hpc, rfl⟩ := hstep
      obtain ⟨hafter, hheld⟩ := signals_eq c.semadj hsmall
      have hin : c.inside = true := by simp [Client.inside, hpc]
      rw [hin] at hadj
      apply guarded_set h hi
      · rw [hafter, hin]
        rfl
      · rw [hadj] at hheld
        exact hheld
  | exit =>
      simp only [clientStep, Option.ite_none_right_eq_some, Option.some.injEq] at hstep
      obtain ⟨-, rfl⟩ := hstep
      apply guarded_set h hi
      · cases hin : c.inside with
        | false =>
            rw [hin] at hadj
            rw [undo_zero hadj]
            rfl
        | true =>
            rw [hin] at hadj
            rw [undo_one hadj hsmall]
            rfl
      · rfl

/-- The end of the server takes back its own `signals(SEMrq)`. -/
theorem guarded_serverExit {BUFFERSIZE : Int} {s next : State} (h : Guarded k s)
    (hstep : step k BUFFERSIZE s .serverExit = some next) : Guarded k next := by
  simp only [step, Option.ite_none_right_eq_some, Option.some.injEq] at hstep
  obtain ⟨-, rfl⟩ := hstep
  have hless : undo s.semval s.semadj k.SEMrq ≤ s.semval k.SEMrq := undo_neg h.adj
  constructor
  · exact (Nat.add_le_add_right hless _).trans h.bound
  · exact Or.inl rfl
  · exact h.clients
  · exact h.children
  · exact h.fr
  · exact h.adj

theorem guarded_step {BUFFERSIZE : Int} (hrq : k.SEMrq ≠ 0) (s : State) (event : Event)
    (next : State) (h : Guarded k s) (hstep : step k BUFFERSIZE s event = some next) :
    Guarded k next := by
  have hother (hforeign : Foreign event) : Guarded k next := by
    obtain ⟨hkeeps, hserver, hfr⟩ := foreign_keeps hrq h hforeign hstep
    exact guarded_keeps h hkeeps hserver hfr
  cases event with
  | serverExit => exact guarded_serverExit h hstep
  | client i event =>
      obtain ⟨c, hi, hclient⟩ := Option.bind_eq_some_iff.mp hstep
      exact guarded_client h hi hclient
  | iniBuf => exact hother trivial
  | dequeueItem => exact hother trivial
  | fork => exact hother trivial
  | child i event => exact hother trivial

/-- After `init_shm` the value of `SEMrq` is one, and nobody is inside. -/
theorem start_spec (k : Kernel) (n : Nat) (semval : Nat → Nat) :
    (start k n semval).semval k.SEMrq = 1 ∧ (start k n semval).semadj k.SEMrq = -1 ∧
      (∀ c ∈ (start k n semval).clients, c.pc = .waits ∧ c.semadj k.SEMrq = 0) ∧
      (start k n semval).clients.length = n ∧ (start k n semval).children = [] ∧
      (start k n semval).SEMfr = 0 ∧ (start k n semval).server = .iniBuf := by
  have hrange : InRange 0 := by decide
  have hne := (filelock_ne k).symm
  refine ⟨?_, ?_, ?_, ?_, ?_, ?_, ?_⟩
  · simp [start, semIni, hrange, SysVSem.signals, Function.update_of_ne hne, SEMVMX]
  · simp [start, semIni, hrange, SysVSem.signals, Function.update_of_ne hne, SEMVMX]
  · intro c hc
    simp only [start, semIni, hrange, if_true, List.map_map, List.mem_map] at hc
    obtain ⟨d, hd, rfl⟩ := hc
    rw [List.eq_of_mem_replicate hd]
    simp
  · simp [start, semIni, hrange]
  · simp [start, semIni, hrange]
  · simp [start, semIni, hrange]
  · simp [start, semIni, hrange]

theorem guarded_start (hrq : k.SEMrq ≠ 0) (n : Nat) (semval : Nat → Nat) :
    Guarded k (start k n semval) := by
  obtain ⟨hvalue, hadj, hclients, -, hchildren, hfr, -⟩ := start_spec k n semval
  have hnone : insideCount (start k n semval) = 0 := by
    apply List.countP_eq_zero.mpr
    intro c hc
    simp [Client.inside, (hclients c hc).1]
  constructor
  · rw [hvalue, hnone]
  · rw [hvalue, hnone]
    exact Or.inr rfl
  · intro c hc
    obtain ⟨hpc, hzero⟩ := hclients c hc
    simp [Client.inside, hpc, hzero]
  · simp [hchildren]
  · rw [hfr]
    exact hrq.symm
  · rw [hadj]
    decide

end Guarded

section Zero

/-- The first client is still adding requests when the child for one of them sets
up its buffers. -/
def overlap : List Event :=
  [.client 0 .waits, .client 0 (.addReq []), .iniBuf, .dequeueItem, .fork,
    .child 0 .iniFull, .child 0 .iniEmpty, .child 0 .iniMutex, .client 1 .waits]

theorem overlap_inside (k : Kernel) (BUFFERSIZE : Int) (hrq : k.SEMrq = 0) :
    (run (step k BUFFERSIZE) (start k 2 fun _ => 0) overlap).map insideCount = some 2 := by
  have hzero : InRange 0 := by decide
  have hone : InRange 1 := by decide
  -- whether the second of the three calls takes effect does not matter
  by_cases hsize : InRange BUFFERSIZE
  · simp [run, overlap, step, start, semIni, hzero, hone, hsize, clientStep, childStep,
      SysVSem.waits, SysVSem.signals, SEMVMX, hrq, fullbuf, emptybuf, mutexbuf, insideCount,
      Client.inside]
  · simp [run, overlap, step, start, semIni, hzero, hone, hsize, clientStep, childStep,
      SysVSem.waits, SysVSem.signals, SEMVMX, hrq, fullbuf, mutexbuf, insideCount,
      Client.inside]

theorem not_excludes_zero {k : Kernel} (BUFFERSIZE : Int) (hrq : k.SEMrq = 0) :
    ¬ Excludes k BUFFERSIZE := by
  intro h
  obtain ⟨t, hrun, htwo⟩ := Option.map_eq_some_iff.mp (overlap_inside k BUFFERSIZE hrq)
  have hone := (h 2 _ overlap t hrun).1
  omega

/-- Under every schedule of the server, its children and any number of clients
the queue is locked by one client at a time, and nobody else changes `SEMrq`,
exactly if the kernel has not given `SEMrq` the identifier zero. -/
theorem rev1_excludes_iff (k : Kernel) (BUFFERSIZE : Int) :
    Excludes k BUFFERSIZE ↔ k.SEMrq ≠ 0 := by
  constructor
  · intro h hrq
    exact not_excludes_zero BUFFERSIZE hrq h
  · intro hrq n semval schedule t hrun
    have hguarded := run_invariant (Guarded k) (guarded_step hrq) (guarded_start hrq n semval) hrun
    constructor
    · have hbound := hguarded.bound
      omega
    · intro event next hforeign hstep
      exact congrArg Prod.fst (foreign_keeps hrq hguarded hforeign hstep).1.view

/-- A kernel on which `semget(0x7070)` was the first call, and so got zero. -/
def freshKernel : Kernel where
  semget key := if 0x7070 ≤ key then 2 * (key - 0x7070).toNat else 2 * (0x7070 - key).toNat - 1
  ftok path := 0x45000000 + path.length
  distinct := by
    intro a b h
    simp only at h
    split at h <;> split at h <;> omega
  ftok_key := by
    intro path
    omega

/-- On this kernel two clients are inside at the end of `overlap`. -/
theorem rev1_two_inside : ¬ Excludes freshKernel 10 := by
  apply not_excludes_zero 10
  decide

/-- A kernel on which `semget(0x7171)` was the first call. -/
def laterKernel : Kernel where
  semget key := freshKernel.semget (key - 0x101)
  ftok := freshKernel.ftok
  distinct := freshKernel.distinct.comp (sub_left_injective (b := 0x101))
  ftok_key := freshKernel.ftok_key

/-- The second client comes in when the first has left, while the child for the
first request works and the server forks for the next. -/
def turns : List Event :=
  [.client 0 .waits, .client 0 (.addReq []), .client 0 (.addReq []), .iniBuf, .dequeueItem, .fork,
    .child 0 .iniFull, .child 0 .iniEmpty, .child 0 .iniMutex, .child 0 .waits,
    .client 0 .signals, .client 1 .waits, .dequeueItem, .fork, .child 1 .iniFull]

/-- On it `overlap` stops at the second client's `waits`, `turns` goes through,
and the lock holds under every schedule. -/
theorem rev1_excludes_later :
    run (step laterKernel 10) (start laterKernel 2 fun _ => 0) overlap = none ∧
      (run (step laterKernel 10) (start laterKernel 2 fun _ => 0) turns).map insideCount = some 1 ∧
      Excludes laterKernel 10 := by
  have hrq : laterKernel.SEMrq ≠ 0 := by decide
  constructor
  · rfl
  constructor
  · rfl
  · exact (rev1_excludes_iff laterKernel 10).mpr hrq

end Zero

end Cse420.Server.ClientLock
