import Cse420.Lib.CMemory
import Cse420.Lib.Machine
import Cse420.Lib.RingBuffer

/-!
The bounded buffer of `server-rev1.c`. Worker threads put the lines they find,
`Printer` takes them out and hands them to `fileWriter`, and `ChildsPlay` puts
one more string behind the last line to stop `Printer`. The buffer has
`BUFFERSIZE` slots, while `sem_init(&empty, 0, 10)` always admits ten.
-/

namespace Cse420.Server.Ring

open CMemory Machine RingBuffer

/-- What `search_test` prints into `line` for a line that matches. -/
structure MatchingLine where
  fname : List UInt8
  lineNum : Nat
  sbuffer : List UInt8

/-- `sprintf(line, "%s:%d:%s", fname, line_num, sbuffer)`. -/
def MatchingLine.line (m : MatchingLine) : List UInt8 :=
  m.fname ++ text ":" ++ text (toString m.lineNum) ++ text ":" ++ m.sbuffer

def exitchild : List UInt8 := text "exitchild"

/-- The places of the section around `put`. -/
inductive PutPc where
  | waitEmpty
  | waitMutex
  | put
  | postMutex
  | postFull
  deriving DecidableEq

/-- A thread that still has to put these strings. -/
structure Producer where
  pc : PutPc
  lines : List (List UInt8)

/-- The places of the loop of `Printer`; `str` is its local variable. -/
inductive PrinterPc where
  | waitFull
  | waitMutex
  | getitem
  | fileWriter (str : List UInt8)
  | postMutex (str : List UInt8)
  | postEmpty (str : List UInt8)
  | stopped
  deriving DecidableEq

/-- The semaphores and the buffer. A slot is `NULL` until it is written.
`putLog` is no variable of the program: it records what was put, in order. -/
structure Shared where
  empty : Nat
  full : Nat
  mutex : Nat
  buffer : List (Option (List UInt8))
  curPut : Nat
  curGet : Nat
  putLog : List (List UInt8)

/-- `closing` is `ChildsPlay` after `openDir`, `output` what `fileWriter` was
given so far. -/
structure State where
  shared : Shared
  workers : List Producer
  closing : Producer
  printer : PrinterPc
  output : List (List UInt8)

def put (size : Nat) (str : List UInt8) (sh : Shared) : Option Shared :=
  if sh.curPut < sh.buffer.length then
    some { sh with
      buffer := sh.buffer.set sh.curPut (some str)
      curPut := advance size sh.curPut
      putLog := sh.putLog ++ [str] }
  else none

/-- No result when the slot is `NULL`, which `strcmp` would follow. -/
def getitem (size : Nat) (sh : Shared) : Option (List UInt8 × Shared) := do
  let slot ← sh.buffer[sh.curGet]?
  let str ← slot
  return (str, { sh with curGet := advance size sh.curGet })

/-- One step of the section around `put`. -/
def produce (size : Nat) (sh : Shared) (p : Producer) : Option (Shared × Producer) :=
  match p.pc, p.lines with
  | .waitEmpty, _ :: _ =>
      if 0 < sh.empty then
        some ({ sh with empty := sh.empty - 1 }, { p with pc := .waitMutex })
      else none
  | .waitMutex, _ =>
      if 0 < sh.mutex then
        some ({ sh with mutex := sh.mutex - 1 }, { p with pc := .put })
      else none
  | .put, line :: rest => (put size line sh).map fun sh => (sh, ⟨.postMutex, rest⟩)
  | .postMutex, _ => some ({ sh with mutex := sh.mutex + 1 }, { p with pc := .postFull })
  | .postFull, _ => some ({ sh with full := sh.full + 1 }, { p with pc := .waitEmpty })
  | .waitEmpty, [] => none
  | .put, [] => none

/-- One step of `Printer`. -/
def consume (size : Nat) (sh : Shared) (output : List (List UInt8)) :
    PrinterPc → Option (Shared × PrinterPc × List (List UInt8))
  | .waitFull =>
      if 0 < sh.full then some ({ sh with full := sh.full - 1 }, .waitMutex, output) else none
  | .waitMutex =>
      if 0 < sh.mutex then some ({ sh with mutex := sh.mutex - 1 }, .getitem, output) else none
  | .getitem => (getitem size sh).map fun (str, sh) => (sh, .fileWriter str, output)
  | .fileWriter str =>
      some (sh, .postMutex str, if str ≠ exitchild then output ++ [str] else output)
  | .postMutex str => some ({ sh with mutex := sh.mutex + 1 }, .postEmpty str, output)
  | .postEmpty str =>
      some ({ sh with empty := sh.empty + 1 },
        if str ≠ exitchild then .waitFull else .stopped, output)
  | .stopped => none

inductive Event where
  | worker (i : Nat)
  | closing
  | printer

def Producer.finished (p : Producer) : Bool := p.pc = .waitEmpty && p.lines.isEmpty

/-- One step of one thread. `joinThreads` holds `ChildsPlay` back until all
workers have finished. -/
def step (size : Nat) (s : State) : Event → Option State
  | .worker i => do
      let p ← s.workers[i]?
      let (shared, p) ← produce size s.shared p
      return { s with shared, workers := s.workers.set i p }
  | .closing =>
      if s.workers.all Producer.finished then do
        let (shared, closing) ← produce size s.shared s.closing
        return { s with shared, closing }
      else none
  | .printer => do
      let (shared, printer, output) ← consume size s.shared s.output s.printer
      return { s with shared, printer, output }

/-- `ChildsPlay` when all threads are created: every worker has the lines it is
going to find. -/
def start (size : Nat) (found : List (List MatchingLine)) : State where
  shared := ⟨10, 0, 1, List.replicate size none, 0, 0, []⟩
  workers := found.map fun lines => ⟨.waitEmpty, lines.map MatchingLine.line⟩
  closing := ⟨.waitEmpty, [exitchild]⟩
  printer := .waitFull
  output := []

/-- Under every schedule: `Printer` can always still come to its end, and when
it stops it has handed on exactly the lines that were put, in the order in which
they were put, these are the lines the workers found, and none is left. -/
def Transparent (size : Nat) (found : List (List MatchingLine)) : Prop :=
  ∀ schedule s, run (step size) (start size found) schedule = some s →
    (∃ later t, run (step size) s later = some t ∧ t.printer = .stopped) ∧
    (s.printer = .stopped →
      s.shared.putLog = s.output ++ [exitchild] ∧
        s.output.Perm (found.flatten.map MatchingLine.line) ∧ s.shared.full = 0)

/-- Has passed `sem_wait(&empty)` and not yet put. -/
def Producer.took (p : Producer) : Bool := p.pc = .waitMutex || p.pc = .put

/-- Has put and not yet passed `sem_post(&full)`. -/
def Producer.placed (p : Producer) : Bool := p.pc = .postMutex || p.pc = .postFull

/-- Is between `sem_wait(&mutex)` and `sem_post(&mutex)`. -/
def Producer.holds (p : Producer) : Bool := p.pc = .put || p.pc = .postMutex

def PrinterPc.took : PrinterPc → Bool
  | .waitMutex | .getitem => true
  | _ => false

def PrinterPc.holds : PrinterPc → Bool
  | .getitem | .fileWriter _ | .postMutex _ => true
  | _ => false

/-- Has passed `sem_wait(&full)` and not yet `sem_post(&empty)`. -/
def PrinterPc.busy : PrinterPc → Bool
  | .waitFull | .stopped => false
  | _ => true

def State.count (s : State) (p : Producer → Bool) : Nat :=
  s.workers.countP p + (p s.closing).toNat

/-- What the three semaphores and the two indices say about the threads, for
any size of the buffer: `gets` is how often `getitem` was called. -/
structure Balanced (size : Nat) (s : State) (gets : Nat) : Prop where
  mutex : s.shared.mutex + s.count Producer.holds + s.printer.holds.toNat = 1
  slots : s.shared.empty + s.count Producer.took + s.count Producer.placed + s.shared.full +
    s.printer.busy.toNat = 10
  puts : s.shared.putLog.length =
    gets + s.count Producer.placed + s.shared.full + s.printer.took.toNat
  put_at : s.shared.curPut = s.shared.putLog.length % size
  get_at : s.shared.curGet = gets % size
  recent : Recent size s.shared.buffer s.shared.putLog

/-- Everything one step of a producer can do to the shared state. -/
structure Produced (size : Nat) (sh after : Shared) (p next : Producer) : Prop where
  mutex : after.mutex + next.holds.toNat = sh.mutex + p.holds.toNat
  slots : after.empty + next.took.toNat + next.placed.toNat + after.full =
    sh.empty + p.took.toNat + p.placed.toNat + sh.full
  puts : after.putLog.length + p.placed.toNat + sh.full =
    sh.putLog.length + next.placed.toNat + after.full
  curGet : after.curGet = sh.curGet
  ring :
    (after.putLog = sh.putLog ∧ after.buffer = sh.buffer ∧ after.curPut = sh.curPut ∧
      next.lines = p.lines) ∨
    ∃ line, p.lines = line :: next.lines ∧ after.putLog = sh.putLog ++ [line] ∧
      after.buffer = sh.buffer.set sh.curPut (some line) ∧
      after.curPut = advance size sh.curPut

theorem produce_spec {size : Nat} {sh after : Shared} {p next : Producer}
    (h : produce size sh p = some (after, next)) : Produced size sh after p next := by
  obtain ⟨pc, lines⟩ := p
  cases pc with
  | waitEmpty =>
      cases lines with
      | nil => cases h
      | cons line rest =>
          simp only [produce, Option.ite_none_right_eq_some, Option.some.injEq,
            Prod.mk.injEq] at h
          obtain ⟨hpos, rfl, rfl⟩ := h
          constructor <;> simp [Producer.holds, Producer.took, Producer.placed]
          omega
  | waitMutex =>
      simp only [produce, Option.ite_none_right_eq_some, Option.some.injEq,
        Prod.mk.injEq] at h
      obtain ⟨hpos, rfl, rfl⟩ := h
      constructor <;> simp [Producer.holds, Producer.took, Producer.placed]
      omega
  | put =>
      cases lines with
      | nil => cases h
      | cons line rest =>
          obtain ⟨sh', hput, hnext⟩ := Option.map_eq_some_iff.mp h
          cases hnext
          simp only [put, Option.ite_none_right_eq_some, Option.some.injEq] at hput
          obtain ⟨-, rfl⟩ := hput
          constructor <;> simp [Producer.holds, Producer.took, Producer.placed]
  | postMutex =>
      cases h
      constructor <;> simp [Producer.holds, Producer.took, Producer.placed]
  | postFull =>
      cases h
      constructor <;> simp [Producer.holds, Producer.took, Producer.placed] <;> omega

/-- The count over all producers when one of them moves. -/
theorem count_worker (s : State) {i : Nat} {p next : Producer} (shared : Shared)
    (hi : s.workers[i]? = some p) (q : Producer → Bool) :
    State.count { s with shared := shared, workers := s.workers.set i next } q + (q p).toNat =
      s.count q + (q next).toNat := by
  have hset := countP_set_add hi next q
  unfold State.count
  dsimp only
  omega

theorem count_closing (s : State) (shared : Shared) (next : Producer)
    (q : Producer → Bool) :
    State.count { s with shared := shared, closing := next } q + (q s.closing).toNat =
      s.count q + (q next).toNat := by
  unfold State.count
  dsimp only
  omega

theorem balanced_produce {size : Nat} (hsize : 0 < size) {s t : State} {gets : Nat}
    {p next : Producer} (h : Balanced size s gets)
    (hp : Produced size s.shared t.shared p next) (hprinter : t.printer = s.printer)
    (hcount : ∀ q : Producer → Bool,
      t.count q + (q p).toNat = s.count q + (q next).toNat) :
    Balanced size t gets := by
  have hholds := hcount Producer.holds
  have htook := hcount Producer.took
  have hplaced := hcount Producer.placed
  constructor
  · have := hp.mutex
    have := h.mutex
    rw [hprinter]
    omega
  · have := hp.slots
    have := h.slots
    rw [hprinter]
    omega
  · have := hp.puts
    have := h.puts
    rw [hprinter]
    omega
  · rcases hp.ring with ⟨hlog, -, hat, -⟩ | ⟨line, -, hlog, -, hat⟩
    · rw [hat, hlog]
      exact h.put_at
    · rw [hat, hlog, h.put_at, advance_mod hsize, List.length_append, List.length_singleton]
  · rw [hp.curGet]
    exact h.get_at
  · rcases hp.ring with ⟨hlog, hbuf, -, -⟩ | ⟨line, -, hlog, hbuf, -⟩
    · rw [hbuf, hlog]
      exact h.recent
    · rw [hbuf, hlog, h.put_at]
      exact h.recent.put hsize line

/-- The calls of `getitem` when `Printer` moves. -/
def PrinterPc.gets : PrinterPc → Nat
  | .getitem => 1
  | _ => 0

/-- Everything one step of `Printer` can do to the shared state. -/
structure Consumed (size : Nat) (sh after : Shared) (pc next : PrinterPc) : Prop where
  mutex : after.mutex + next.holds.toNat = sh.mutex + pc.holds.toNat
  slots : after.empty + after.full + next.busy.toNat = sh.empty + sh.full + pc.busy.toNat
  gets : after.full + next.took.toNat + pc.gets = sh.full + pc.took.toNat
  curGet : after.curGet = if pc = .getitem then advance size sh.curGet else sh.curGet
  putLog : after.putLog = sh.putLog
  buffer : after.buffer = sh.buffer
  curPut : after.curPut = sh.curPut

theorem consume_spec {size : Nat} {sh after : Shared} {pc next : PrinterPc}
    {output written : List (List UInt8)}
    (h : consume size sh output pc = some (after, next, written)) :
    Consumed size sh after pc next := by
  cases pc with
  | waitFull =>
      simp only [consume, Option.ite_none_right_eq_some, Option.some.injEq,
        Prod.mk.injEq] at h
      obtain ⟨hpos, rfl, rfl, rfl⟩ := h
      constructor <;> simp [PrinterPc.holds, PrinterPc.took, PrinterPc.busy, PrinterPc.gets] <;>
        omega
  | waitMutex =>
      simp only [consume, Option.ite_none_right_eq_some, Option.some.injEq,
        Prod.mk.injEq] at h
      obtain ⟨hpos, rfl, rfl, rfl⟩ := h
      constructor <;> simp [PrinterPc.holds, PrinterPc.took, PrinterPc.busy, PrinterPc.gets]
      omega
  | getitem =>
      obtain ⟨⟨str, sh'⟩, hget, hnext⟩ := Option.map_eq_some_iff.mp h
      cases hnext
      obtain ⟨slot, hslot, hrest⟩ := Option.bind_eq_some_iff.mp hget
      obtain ⟨str', hstr, hafter⟩ := Option.bind_eq_some_iff.mp hrest
      cases hafter
      constructor <;> simp [PrinterPc.holds, PrinterPc.took, PrinterPc.busy, PrinterPc.gets]
  | fileWriter str =>
      cases h
      constructor <;> simp [PrinterPc.holds, PrinterPc.took, PrinterPc.busy, PrinterPc.gets]
  | postMutex str =>
      cases h
      constructor <;> simp [PrinterPc.holds, PrinterPc.took, PrinterPc.busy, PrinterPc.gets]
  | postEmpty str =>
      cases h
      by_cases hstr : str = exitchild
      · constructor <;> simp [PrinterPc.holds, PrinterPc.took, PrinterPc.busy, PrinterPc.gets, hstr]
        omega
      · constructor <;> simp [PrinterPc.holds, PrinterPc.took, PrinterPc.busy, PrinterPc.gets, hstr]
        omega
  | stopped => cases h

theorem balanced_consume {size : Nat} (hsize : 0 < size) {s t : State} {gets : Nat}
    (h : Balanced size s gets) (hc : Consumed size s.shared t.shared s.printer t.printer)
    (hworkers : t.workers = s.workers) (hclosing : t.closing = s.closing) :
    Balanced size t (gets + s.printer.gets) := by
  have hcount : ∀ q, t.count q = s.count q := by
    intro q
    simp only [State.count, hworkers, hclosing]
  constructor
  · have := h.mutex
    have := hc.mutex
    rw [hcount]
    omega
  · have := h.slots
    have := hc.slots
    rw [hcount, hcount]
    omega
  · have := h.puts
    have := hc.gets
    rw [hcount, hc.putLog]
    omega
  · rw [hc.curPut, hc.putLog]
    exact h.put_at
  · rw [hc.curGet, h.get_at]
    split
    · rename_i hpc
      rw [hpc, advance_mod hsize]
      rfl
    · rename_i hpc
      have hnone : s.printer.gets = 0 := by
        unfold PrinterPc.gets
        split
        · contradiction
        · rfl
      rw [hnone, Nat.add_zero]
  · rw [hc.buffer, hc.putLog]
    exact h.recent

theorem worker_cases {size : Nat} {s t : State} {i : Nat}
    (h : step size s (.worker i) = some t) :
    ∃ p shared next, s.workers[i]? = some p ∧
      produce size s.shared p = some (shared, next) ∧
      t = { s with shared := shared, workers := s.workers.set i next } := by
  obtain ⟨p, hi, hrest⟩ := Option.bind_eq_some_iff.mp h
  obtain ⟨⟨shared, next⟩, hp, ht⟩ := Option.bind_eq_some_iff.mp hrest
  exact ⟨p, shared, next, hi, hp, (Option.some.inj ht).symm⟩

theorem closing_cases {size : Nat} {s t : State} (h : step size s .closing = some t) :
    ∃ shared next, s.workers.all Producer.finished = true ∧
      produce size s.shared s.closing = some (shared, next) ∧
      t = { s with shared := shared, closing := next } := by
  simp only [step, Option.ite_none_right_eq_some] at h
  obtain ⟨hall, hrest⟩ := h
  obtain ⟨⟨shared, next⟩, hp, ht⟩ := Option.bind_eq_some_iff.mp hrest
  exact ⟨shared, next, hall, hp, (Option.some.inj ht).symm⟩

theorem printer_cases {size : Nat} {s t : State} (h : step size s .printer = some t) :
    ∃ shared printer output,
      consume size s.shared s.output s.printer = some (shared, printer, output) ∧
      t = { s with shared := shared, printer := printer, output := output } := by
  obtain ⟨⟨shared, printer, output⟩, hc, ht⟩ := Option.bind_eq_some_iff.mp h
  exact ⟨shared, printer, output, hc, (Option.some.inj ht).symm⟩

theorem balanced_start (size : Nat) (found : List (List MatchingLine)) :
    Balanced size (start size found) 0 := by
  have hnone : ∀ q : Producer → Bool, (∀ lines, q ⟨.waitEmpty, lines⟩ = false) →
      (start size found).count q = 0 := by
    intro q hq
    simp [State.count, start, hq, List.countP_map, Function.comp_def]
  have hholds := hnone Producer.holds (fun _ => rfl)
  have htook := hnone Producer.took (fun _ => rfl)
  have hplaced := hnone Producer.placed (fun _ => rfl)
  constructor
  · rw [hholds]
    rfl
  · rw [htook, hplaced]
    rfl
  · rw [hplaced]
    rfl
  · simp [start]
  · simp [start]
  · exact recent_empty size

/-- Every step keeps the balance. -/
theorem balanced_step {size : Nat} (hsize : 0 < size) {s t : State} {event : Event}
    {gets : Nat} (h : Balanced size s gets) (hstep : step size s event = some t) :
    ∃ after, Balanced size t after := by
  cases event with
  | worker i =>
      obtain ⟨p, shared, next, hi, hp, rfl⟩ := worker_cases hstep
      exact ⟨gets, balanced_produce hsize h (produce_spec hp) rfl (count_worker s shared hi)⟩
  | closing =>
      obtain ⟨shared, next, -, hp, rfl⟩ := closing_cases hstep
      exact ⟨gets, balanced_produce hsize h (produce_spec hp) rfl (count_closing s shared next)⟩
  | printer =>
      obtain ⟨shared, printer, output, hc, rfl⟩ := printer_cases hstep
      exact ⟨_, balanced_consume hsize h (consume_spec hc) rfl rfl⟩

end Cse420.Server.Ring
