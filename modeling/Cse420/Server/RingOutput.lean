import Cse420.Lib.SysVSem
import Cse420.Server.RingInterleaves

/-!
The children of `server-rev1.c` and the file they share. Every child has a buffer
of its own, and its `Printer` appends to `output.txt` line by line, each line
between `waits(SEMbuf)` and `signals(SEMbuf)`. The bytes of a line may reach the
file in pieces. `openDir` starts the workers one after the other, while those it has
started and `Printer` are already at work.
-/

namespace Cse420.Server.RingOutput

open CMemory Machine SysVSem Interleaving
open Cse420.Server.Ring (MatchingLine exitchild toPut Room Sound Drawn distance)

/-- The identifier of `SEMbuf`, and the one with the number 0, which `fullbuf`,
`emptybuf` and `mutexbuf` hold. -/
structure Ids (κ : Type) where
  SEMbuf : κ
  zero : κ
  apart : SEMbuf ≠ zero

/-- The length of `tids`. -/
def MAXTHREADS : Nat := 20

/-- A child with its threads. `openDir` has created the first `threadCount` of the
workers, the others have not made a step. `writing` is the line `fileWriter` has the file open
for: what is written of it and what is not. -/
structure Child (κ : Type) where
  begun : Bool
  threadCount : Nat
  ring : Ring.State
  writing : Option (List UInt8 × List UInt8)
  semadj : κ → Int

structure State (κ : Type) where
  semval : κ → Nat
  children : List (Child κ)
  output : List UInt8

inductive Event where
  /-- `sem_ini` of `fullbuf`, `emptybuf` and `mutexbuf` in `ChildsPlay`. -/
  | semIni (i : Nat)
  /-- `openDir` creates the next worker and stores its `tid`. -/
  | create (i : Nat)
  /-- A step of a thread outside of `fileWriter`. -/
  | ring (i : Nat) (event : Ring.Event)
  | waits (i : Nat)
  /-- The next `n` bytes reach the file. -/
  | write (i n : Nat)
  | signals (i : Nat)

section Model

variable {κ : Type} [DecidableEq κ]

/-- `Printer` is in `fileWriter`, where its steps are those of this machine. -/
def inFileWriter (ring : Ring.State) : Ring.Event → Bool
  | .printer =>
      match ring.printer with
      | .fileWriter str => str ≠ exitchild
      | _ => false
  | _ => false

/-- The thread has been created, and `joinThreads` comes behind `openDir`. -/
def Child.created (c : Child κ) : Ring.Event → Bool
  | .worker k => k < c.threadCount
  | .closing => c.ring.workers.length ≤ c.threadCount
  | .printer => true

def State.setChild (s : State κ) (i : Nat) (c : Child κ) : State κ :=
  { s with children := s.children.set i c }

/-- The three calls of `sem_ini`, of which the last sets the value to one. -/
def semInis (ids : Ids κ) (s : State κ) : State κ :=
  { s with
    semval := Function.update s.semval ids.zero 1
    children := s.children.map fun c => { c with semadj := Function.update c.semadj ids.zero 0 } }

def childStep (ids : Ids κ) (size : Nat) (s : State κ) (i : Nat) (c : Child κ) :
    Event → Option (State κ)
  | .semIni _ =>
      if c.begun then none else some (semInis ids (s.setChild i { c with begun := true }))
  | .create _ =>
      -- no result for a store behind `tids`
      if c.begun = true ∧ c.threadCount < c.ring.workers.length ∧ c.threadCount < MAXTHREADS then
        some (s.setChild i { c with threadCount := c.threadCount + 1 })
      else none
  | .ring _ event =>
      if c.begun = true ∧ c.created event = true ∧ inFileWriter c.ring event = false then
        (Ring.step size c.ring event).map fun ring => s.setChild i { c with ring }
      else none
  | .waits _ =>
      match c.ring.printer, c.writing with
      | .fileWriter str, none =>
          if str ≠ exitchild then
            (SysVSem.waits ids.SEMbuf s.semval c.semadj).map fun (semval, semadj) =>
              { s with semval }.setChild i { c with writing := some ([], str), semadj }
          else none
      | _, _ => none
  | .write _ n =>
      match c.writing with
      | some (written, rest) =>
          some { s.setChild i { c with writing := some (written ++ rest.take n, rest.drop n) } with
            output := s.output ++ rest.take n }
      | none => none
  | .signals _ =>
      match c.writing with
      | some (_, []) =>
          let (semval, semadj) := SysVSem.signals ids.SEMbuf s.semval c.semadj
          (Ring.step size c.ring .printer).map fun ring =>
            { s with semval }.setChild i { c with ring, writing := none, semadj }
      | _ => none

def Event.child : Event → Nat
  | .semIni i | .create i | .ring i _ | .waits i | .write i _ | .signals i => i

def step (ids : Ids κ) (size : Nat) (s : State κ) (event : Event) : Option (State κ) := do
  let c ← s.children[event.child]?
  childStep ids size s event.child c event

/-- The workers of a request have a place in `tids` each, and their lines have room
in the buffer. -/
structure Fits (size : Nat) (found : List (List MatchingLine)) : Prop where
  threads : found.length ≤ MAXTHREADS
  room : Room size found

instance (size : Nat) (found : List (List MatchingLine)) : Decidable (Fits size found) :=
  decidable_of_iff (found.length ≤ MAXTHREADS ∧ Room size found)
    ⟨fun h => ⟨h.1, h.2⟩, fun h => ⟨h.threads, h.room⟩⟩

/-- The children of requests whose workers are going to find these lines. -/
def start (ids : Ids κ) (size : Nat) (founds : List (List (List MatchingLine)))
    (semval : κ → Nat) : State κ where
  semval := Function.update semval ids.SEMbuf 1
  children := founds.map fun found => ⟨false, 0, Ring.start size found, none, fun _ => 0⟩
  output := []

end Model

section Rings

variable {size : Nat} {r next : Ring.State}

/-- Outside of `fileWriter` nothing is handed on, and only `Printer` itself leaves it. -/
theorem ring_outside {event : Ring.Event} (hstep : Ring.step size r event = some next)
    (hnot : inFileWriter r event = false) :
    next.output = r.output ∧
      ∀ str, str ≠ exitchild → r.printer = .fileWriter str → next.printer = r.printer := by
  cases event with
  | worker i =>
      obtain ⟨p, shared, moved, -, -, rfl⟩ := Ring.worker_cases hstep
      exact ⟨rfl, fun _ _ _ => rfl⟩
  | closing =>
      obtain ⟨shared, moved, -, -, rfl⟩ := Ring.closing_cases hstep
      exact ⟨rfl, fun _ _ _ => rfl⟩
  | printer =>
      obtain ⟨shared, printer, output, hc, rfl⟩ := Ring.printer_cases hstep
      constructor
      · cases hpc : r.printer with
        | fileWriter str =>
            have hexit : str = exitchild := by simpa [inFileWriter, hpc] using hnot
            rw [hpc] at hc
            simp only [Ring.consume, hexit, ne_eq, not_true_eq_false, if_false,
              Option.some.injEq, Prod.mk.injEq] at hc
            exact hc.2.2.symm
        | waitFull =>
            simp only [hpc, Ring.consume, Option.ite_none_right_eq_some, Option.some.injEq,
              Prod.mk.injEq] at hc
            exact hc.2.2.2.symm
        | waitMutex =>
            simp only [hpc, Ring.consume, Option.ite_none_right_eq_some, Option.some.injEq,
              Prod.mk.injEq] at hc
            exact hc.2.2.2.symm
        | getitem =>
            rw [hpc] at hc
            obtain ⟨taken, -, hsame⟩ := Option.map_eq_some_iff.mp hc
            simp only [Prod.mk.injEq] at hsame
            exact hsame.2.2.symm
        | postMutex str =>
            simp only [hpc, Ring.consume, Option.some.injEq, Prod.mk.injEq] at hc
            exact hc.2.2.symm
        | postEmpty str =>
            simp only [hpc, Ring.consume, Option.some.injEq, Prod.mk.injEq] at hc
            exact hc.2.2.symm
        | stopped =>
            rw [hpc] at hc
            cases hc
      · intro str hline hpc
        simp [inFileWriter, hpc, hline] at hnot

/-- `fileWriter` returns. -/
theorem ring_printed {str : List UInt8} (hpc : r.printer = .fileWriter str)
    (hline : str ≠ exitchild) :
    Ring.step size r .printer =
      some { r with printer := .postMutex str, output := r.output ++ [str] } := by
  simp [Ring.step, hpc, Ring.consume, hline]

end Rings

section Invariant

variable {κ : Type}

def Child.inside (c : Child κ) : Bool := c.writing.isSome

/-- The file holds `lines`, and behind them what is written of the line of the
child that has it open. -/
structure Filed (s : State κ) (lines : List (List UInt8)) : Prop where
  handed : Grows (s.children.map fun c => c.ring.output) lines
  closed : (∀ c ∈ s.children, c.inside = false) → s.output = lines.flatten
  opened : ∀ c ∈ s.children, ∀ written rest, c.writing = some (written, rest) →
    s.output = lines.flatten ++ written

/-- What is true of the threads of one child. -/
structure Fed (size : Nat) (found : List (List MatchingLine)) (ring : Ring.State) : Prop where
  sound : Sound size found ring
  drawn : Drawn found ring
  workers : ring.workers.length = found.length

/-- The invariant. -/
structure Good (ids : Ids κ) (size : Nat) (founds : List (List (List MatchingLine)))
    (s : State κ) : Prop where
  length : s.children.length = founds.length
  rings : ∀ (i : Nat) c found, s.children[i]? = some c → founds[i]? = some found →
    Fed size found c.ring
  locked : s.semval ids.SEMbuf + s.children.countP Child.inside = 1
  adj : ∀ c ∈ s.children, c.semadj ids.SEMbuf = c.inside.toNat
  writing : ∀ c ∈ s.children, ∀ written rest, c.writing = some (written, rest) →
    c.ring.printer = .fileWriter (written ++ rest) ∧ written ++ rest ≠ exitchild
  file : ∃ lines, Filed s lines

variable {ids : Ids κ} {size : Nat} {founds : List (List (List MatchingLine))} {s t : State κ}
  {i : Nat} {c next : Child κ} {lines : List (List UInt8)}

theorem Good.found (h : Good ids size founds s) (hi : s.children[i]? = some c) :
    ∃ found, founds[i]? = some found ∧ Fed size found c.ring := by
  have hlt := (List.getElem?_eq_some_iff.mp hi).1
  rw [h.length] at hlt
  have hfound := List.getElem?_eq_getElem hlt
  exact ⟨_, hfound, h.rings i c _ hi hfound⟩

/-- While one child has the file open no other has. -/
theorem others_outside (hone : s.children.countP Child.inside ≤ 1) (hi : s.children[i]? = some c)
    (hinside : c.inside = true) {d : Child κ} (hd : d ∈ s.children.set i next) (hne : d ≠ next) :
    d.inside = false := by
  obtain ⟨front, back, hchildren, hset⟩ := set_split hi
  rw [hchildren, List.countP_append, List.countP_cons_of_pos hinside] at hone
  rw [hset, List.mem_append, List.mem_cons] at hd
  have hnone {l : List (Child κ)} (hcount : l.countP Child.inside = 0) (hmem : d ∈ l) :
      d.inside = false := Bool.eq_false_iff.mpr (List.countP_eq_zero.mp hcount d hmem)
  rcases hd with hd | hd | hd
  · exact hnone (by omega) hd
  · exact absurd hd hne
  · exact hnone (by omega) hd

theorem inside_of_writing {written rest : List UInt8} (h : c.writing = some (written, rest)) :
    c.inside = true := by
  simp [Child.inside, h]

theorem writing_of_inside (h : c.inside = true) :
    ∃ written rest, c.writing = some (written, rest) := by
  obtain ⟨⟨written, rest⟩, hwriting⟩ := Option.isSome_iff_exists.mp h
  exact ⟨written, rest, hwriting⟩

/-- One child moves, and the invariant holds of it. -/
theorem good_child (h : Good ids size founds s) (hi : s.children[i]? = some c)
    (hchildren : t.children = s.children.set i next)
    (hring : ∀ found ∈ founds, Fed size found c.ring → Fed size found next.ring)
    (hvalue : t.semval ids.SEMbuf + next.inside.toNat = s.semval ids.SEMbuf + c.inside.toNat)
    (hadj : next.semadj ids.SEMbuf = next.inside.toNat)
    (hwriting : ∀ written rest, next.writing = some (written, rest) →
      next.ring.printer = .fileWriter (written ++ rest) ∧ written ++ rest ≠ exitchild)
    (hfile : ∃ lines, Filed t lines) : Good ids size founds t := by
  have hcount := countP_set_add hi next Child.inside
  rw [← hchildren] at hcount
  have hlocked := h.locked
  constructor
  · rw [hchildren, List.length_set]
    exact h.length
  · intro n d found hn hfound
    rw [hchildren] at hn
    by_cases hsame : i = n
    · subst hsame
      rw [List.getElem?_set_self (List.getElem?_eq_some_iff.mp hi).1, Option.some.injEq] at hn
      subst hn
      exact hring found (List.mem_of_getElem? hfound) (h.rings i c found hi hfound)
    · rw [List.getElem?_set_ne hsame] at hn
      exact h.rings n d found hn hfound
  · omega
  · intro d hd
    rw [hchildren] at hd
    rcases List.mem_or_eq_of_mem_set hd with hd | rfl
    · exact h.adj d hd
    · exact hadj
  · intro d hd
    rw [hchildren] at hd
    rcases List.mem_or_eq_of_mem_set hd with hd | rfl
    · exact h.writing d hd
    · exact hwriting
  · exact hfile

theorem handed_set (h : Filed s lines) (hi : s.children[i]? = some c) (next : Child κ)
    (hring : next.ring.output = c.ring.output) :
    Grows ((s.children.set i next).map fun c => c.ring.output) lines := by
  rw [map_set_same hi (fun c => c.ring.output) hring]
  exact h.handed

/-- The file is the same if a child moves outside of `fileWriter`. -/
theorem filed_same (h : Filed s lines) (hi : s.children[i]? = some c)
    (hchildren : t.children = s.children.set i next) (houtput : t.output = s.output)
    (hring : next.ring.output = c.ring.output) (hwriting : next.writing = c.writing) :
    Filed t lines := by
  have hinside : next.inside = c.inside := by simp only [Child.inside, hwriting]
  constructor
  · rw [hchildren]
    exact handed_set h hi next hring
  · intro hnone
    rw [houtput]
    apply h.closed
    intro d hd
    rcases mem_set_of_mem hi hd with rfl | hd
    · rw [← hinside]
      apply hnone
      obtain ⟨front, back, -, hset⟩ := set_split hi
      rw [hchildren, hset]
      simp
    · apply hnone
      rw [hchildren]
      exact hd
  · intro d hd written rest hsome
    rw [houtput]
    rw [hchildren] at hd
    rcases List.mem_or_eq_of_mem_set hd with hd | rfl
    · exact h.opened d hd written rest hsome
    · exact h.opened c (List.mem_of_getElem? hi) written rest (hwriting ▸ hsome)

end Invariant

section Steps

variable {κ : Type} [DecidableEq κ] {ids : Ids κ} {size : Nat}
  {founds : List (List (List MatchingLine))} {s t : State κ} {i n : Nat} {c : Child κ}

/-- A ring that has room moves. -/
theorem ring_moves (hsize : 0 < size) {found : List (List MatchingLine)} (hroom : Room size found)
    {r next : Ring.State} {event : Ring.Event} (hstep : Ring.step size r event = some next)
    (h : Fed size found r) : Fed size found next := by
  refine ⟨Ring.sound_step hsize hroom h.sound hstep, Ring.drawn_step h.sound h.drawn hstep, ?_⟩
  rw [← h.workers]
  cases event with
  | worker k =>
      obtain ⟨p, shared, moved, -, -, rfl⟩ := Ring.worker_cases hstep
      exact List.length_set
  | closing =>
      obtain ⟨shared, moved, -, -, rfl⟩ := Ring.closing_cases hstep
      rfl
  | printer =>
      obtain ⟨shared, printer, output, -, rfl⟩ := Ring.printer_cases hstep
      rfl

/-- `SEMbuf` is not the identifier that a new child sets. -/
theorem good_semIni (h : Good ids size founds s) (hi : s.children[i]? = some c) :
    Good ids size founds (semInis ids (s.setChild i { c with begun := true })) := by
  have hmoved : Good ids size founds (s.setChild i { c with begun := true }) := by
    obtain ⟨lines, hfiled⟩ := h.file
    have hmem := List.mem_of_getElem? hi
    exact good_child h hi rfl (fun _ _ hring => hring) rfl (h.adj c hmem) (h.writing c hmem)
      ⟨lines, filed_same hfiled hi rfl rfl rfl rfl⟩
  obtain ⟨hlength, hrings, hlocked, hadj, hwriting, lines, hfiled⟩ := hmoved
  have hmem {d : Child κ}
      (hd : d ∈ (semInis ids (s.setChild i { c with begun := true })).children) :
      ∃ e ∈ (s.setChild i { c with begun := true }).children,
        d = { e with semadj := Function.update e.semadj ids.zero 0 } := by
    obtain ⟨e, he, rfl⟩ := List.mem_map.mp hd
    exact ⟨e, he, rfl⟩
  refine ⟨?_, ?_, ?_, ?_, ?_, lines, ?_, ?_, ?_⟩
  · simpa [semInis] using hlength
  · intro n d found hn hfound
    simp only [semInis, List.getElem?_map, Option.map_eq_some_iff] at hn
    obtain ⟨e, he, rfl⟩ := hn
    exact hrings n e found he hfound
  · have hcount : (semInis ids (s.setChild i { c with begun := true })).children.countP
        Child.inside = (s.setChild i { c with begun := true }).children.countP Child.inside := by
      simp only [semInis, List.countP_map]
      rfl
    rw [hcount, ← hlocked]
    exact congrArg (· + _) (Function.update_of_ne ids.apart ..)
  · intro d hd
    obtain ⟨e, he, rfl⟩ := hmem hd
    exact (Function.update_of_ne ids.apart ..).trans (hadj e he)
  · intro d hd
    obtain ⟨e, he, rfl⟩ := hmem hd
    exact hwriting e he
  · have hsame : ((semInis ids (s.setChild i { c with begun := true })).children.map fun c =>
        c.ring.output) =
          (s.setChild i { c with begun := true }).children.map fun c => c.ring.output := by
      simp [semInis, Function.comp_def]
    rw [hsame]
    exact hfiled.handed
  · intro hall
    apply hfiled.closed
    intro e he
    have hnone := hall { e with semadj := Function.update e.semadj ids.zero 0 }
      (List.mem_map.mpr ⟨e, he, rfl⟩)
    exact hnone
  · intro d hd
    obtain ⟨e, he, rfl⟩ := hmem hd
    exact hfiled.opened e he

omit [DecidableEq κ] in
/-- A thread moves outside of `fileWriter`. -/
theorem good_ring (hsize : 0 < size) (hroom : ∀ found ∈ founds, Room size found)
    (h : Good ids size founds s) (hi : s.children[i]? = some c) {event : Ring.Event}
    {ring : Ring.State} (hnot : inFileWriter c.ring event = false)
    (hstep : Ring.step size c.ring event = some ring) :
    Good ids size founds (s.setChild i { c with ring }) := by
  obtain ⟨houtput, hstays⟩ := ring_outside hstep hnot
  obtain ⟨lines, hfiled⟩ := h.file
  have hmem := List.mem_of_getElem? hi
  apply good_child h hi rfl
  · intro found hfound hboth
    exact ring_moves hsize (hroom found hfound) hstep hboth
  · rfl
  · exact h.adj c hmem
  · intro written rest hwriting
    obtain ⟨hpc, hline⟩ := h.writing c hmem written rest hwriting
    exact ⟨(hstays _ hline hpc).trans hpc, hline⟩
  · exact ⟨lines, filed_same hfiled hi rfl rfl houtput rfl⟩

/-- A child opens the file. -/
theorem good_waits (h : Good ids size founds s) (hi : s.children[i]? = some c) {str : List UInt8}
    (hpc : c.ring.printer = .fileWriter str) (hline : str ≠ exitchild)
    (hnone : c.writing = none) {after : (κ → Nat) × (κ → Int)}
    (hwaits : SysVSem.waits ids.SEMbuf s.semval c.semadj = some after) :
    Good ids size founds ({ s with semval := after.1 }.setChild i
      { c with writing := some ([], str), semadj := after.2 }) := by
  obtain ⟨hpos, hvalue, hadj⟩ := waits_cases hwaits
  obtain ⟨lines, hfiled⟩ := h.file
  have hmem := List.mem_of_getElem? hi
  have hlocked := h.locked
  have hfree : ∀ d ∈ s.children, d.inside = false := by
    have hcount : s.children.countP Child.inside = 0 := by omega
    exact fun d hd => Bool.eq_false_iff.mpr (List.countP_eq_zero.mp hcount d hd)
  apply good_child h hi rfl
  · exact fun _ _ hring => hring
  · simp only [State.setChild, hvalue, hnone, Child.inside, Option.isSome_some, Bool.toNat_true,
      Option.isSome_none, Bool.toNat_false]
    omega
  · simp [hadj, h.adj c hmem, hnone, Child.inside]
  · rintro written rest ⟨rfl, rfl⟩
    exact ⟨hpc, hline⟩
  · refine ⟨lines, ?_, ?_, ?_⟩
    · exact handed_set hfiled hi _ rfl
    · intro hall
      obtain ⟨front, back, -, hset⟩ := set_split hi
      have hinside := hall { c with writing := some ([], str), semadj := after.2 } (by
        simp only [State.setChild, hset]
        simp)
      cases hinside
    · intro d hd written rest hwriting
      rcases List.mem_or_eq_of_mem_set hd with hd | rfl
      · have hinside := inside_of_writing hwriting
        rw [hfree d hd] at hinside
        cases hinside
      · cases hwriting
        rw [List.append_nil]
        exact hfiled.closed hfree

omit [DecidableEq κ] in
/-- Some bytes of the line reach the file. -/
theorem good_write (h : Good ids size founds s) (hi : s.children[i]? = some c)
    {written rest : List UInt8} (hwriting : c.writing = some (written, rest)) (n : Nat) :
    Good ids size founds { s.setChild i
      { c with writing := some (written ++ rest.take n, rest.drop n) } with
        output := s.output ++ rest.take n } := by
  obtain ⟨lines, hfiled⟩ := h.file
  have hmem := List.mem_of_getElem? hi
  have hin := inside_of_writing hwriting
  have hlocked := h.locked
  obtain ⟨hpc, hline⟩ := h.writing c hmem written rest hwriting
  have hsame : written ++ rest.take n ++ rest.drop n = written ++ rest := by
    rw [List.append_assoc, List.take_append_drop]
  let next : Child κ := { c with writing := some (written ++ rest.take n, rest.drop n) }
  apply good_child h hi rfl
  · exact fun _ _ hring => hring
  · simp [State.setChild, hwriting, Child.inside]
  · simpa [hwriting, Child.inside] using h.adj c hmem
  · rintro _ _ ⟨rfl, rfl⟩
    rw [hsame]
    exact ⟨hpc, hline⟩
  · refine ⟨lines, ?_, ?_, ?_⟩
    · exact handed_set hfiled hi _ rfl
    · intro hall
      obtain ⟨front, back, -, hset⟩ := set_split hi
      have hinside := hall next (by
        simp only [State.setChild, hset]
        simp [next])
      cases hinside
    · intro d hd left right hsome
      by_cases hd' : d = next
      · subst hd'
        cases hsome
        show s.output ++ rest.take n = _
        rw [hfiled.opened c hmem written rest hwriting, List.append_assoc]
      · have hout := others_outside (by omega) hi hin hd hd'
        rw [inside_of_writing hsome] at hout
        cases hout

/-- The line is written and the child closes the file. -/
theorem good_signals (hsize : 0 < size) (hroom : ∀ found ∈ founds, Room size found)
    (h : Good ids size founds s) (hi : s.children[i]? = some c) {written : List UInt8}
    (hwriting : c.writing = some (written, [])) {ring : Ring.State}
    (hstep : Ring.step size c.ring .printer = some ring) :
    Good ids size founds ({ s with
      semval := (SysVSem.signals ids.SEMbuf s.semval c.semadj).1 }.setChild i { c with
        ring
        writing := none
        semadj := (SysVSem.signals ids.SEMbuf s.semval c.semadj).2 }) := by
  obtain ⟨lines, hfiled⟩ := h.file
  have hmem := List.mem_of_getElem? hi
  have hin := inside_of_writing hwriting
  have hlocked := h.locked
  obtain ⟨hpc, hline⟩ := h.writing c hmem written [] hwriting
  rw [List.append_nil] at hpc hline
  have hring := hstep
  rw [ring_printed hpc hline, Option.some.injEq] at hring
  have hpos : 0 < s.children.countP Child.inside := List.countP_pos_iff.mpr ⟨c, hmem, hin⟩
  have hsmall : s.semval ids.SEMbuf < SEMVMX := by
    have hlarge : 0 < SEMVMX := by decide
    omega
  obtain ⟨hvalue, hadj⟩ := signals_eq c.semadj hsmall
  let next : Child κ := { c with
    ring
    writing := none
    semadj := (SysVSem.signals ids.SEMbuf s.semval c.semadj).2 }
  have hfree : ∀ d ∈ s.children.set i next, d.inside = false := by
    intro d hd
    by_cases hd' : d = next
    · rw [hd']
      rfl
    · exact others_outside (by omega) hi hin hd hd'
  apply good_child h hi rfl
  · intro found hfound hboth
    exact ring_moves hsize (hroom found hfound) hstep hboth
  · simp [State.setChild, hvalue, hwriting, Child.inside]
  · simp [hadj, h.adj c hmem, hwriting, Child.inside]
  · rintro _ _ ⟨⟩
  · refine ⟨lines ++ [written], ?_, ?_, ?_⟩
    · have houtput : next.ring.output = c.ring.output ++ [written] := by
        show ring.output = _
        rw [← hring]
      have hget : (s.children.map fun c => c.ring.output)[i]? = some c.ring.output := by
        rw [List.getElem?_map, hi]
        rfl
      have hgrows := hfiled.handed.append hget written
      rw [← houtput, ← List.map_set (f := fun c : Child κ => c.ring.output)] at hgrows
      exact hgrows
    · intro _
      show s.output = _
      rw [hfiled.opened c hmem written [] hwriting]
      simp
    · intro d hd left right hsome
      have hout := hfree d hd
      rw [inside_of_writing hsome] at hout
      cases hout

omit [DecidableEq κ] in
/-- A worker is created. -/
theorem good_create (h : Good ids size founds s) (hi : s.children[i]? = some c) (count : Nat) :
    Good ids size founds (s.setChild i { c with threadCount := count }) := by
  obtain ⟨lines, hfiled⟩ := h.file
  have hmem := List.mem_of_getElem? hi
  exact good_child h hi rfl (fun _ _ hring => hring) rfl (h.adj c hmem) (h.writing c hmem)
    ⟨lines, filed_same hfiled hi rfl rfl rfl rfl⟩

/-- What a step of a child is. -/
theorem step_cases {event : Event} (hstep : step ids size s event = some t) :
    ∃ i c, s.children[i]? = some c ∧
      ((event = .semIni i ∧ c.begun = false ∧
          t = semInis ids (s.setChild i { c with begun := true })) ∨
        (event = .create i ∧ c.threadCount < c.ring.workers.length ∧
          t = s.setChild i { c with threadCount := c.threadCount + 1 }) ∨
        (∃ moves ring, event = .ring i moves ∧
          inFileWriter c.ring moves = false ∧ Ring.step size c.ring moves = some ring ∧
          t = s.setChild i { c with ring }) ∨
        (∃ str after, event = .waits i ∧ c.ring.printer = .fileWriter str ∧ str ≠ exitchild ∧
          c.writing = none ∧ SysVSem.waits ids.SEMbuf s.semval c.semadj = some after ∧
          t = { s with semval := after.1 }.setChild i
            { c with writing := some ([], str), semadj := after.2 }) ∨
        (∃ n written rest, event = .write i n ∧ c.writing = some (written, rest) ∧
          t = { s.setChild i { c with writing := some (written ++ rest.take n, rest.drop n) } with
            output := s.output ++ rest.take n }) ∨
        (∃ written ring, event = .signals i ∧ c.writing = some (written, []) ∧
          Ring.step size c.ring .printer = some ring ∧
          t = { s with
            semval := (SysVSem.signals ids.SEMbuf s.semval c.semadj).1 }.setChild i { c with
              ring
              writing := none
              semadj := (SysVSem.signals ids.SEMbuf s.semval c.semadj).2 })) := by
  obtain ⟨c, hi, hchild⟩ := Option.bind_eq_some_iff.mp hstep
  refine ⟨event.child, c, hi, ?_⟩
  cases event with
  | semIni i =>
      left
      simp only [childStep, Option.ite_none_left_eq_some, Option.some.injEq] at hchild
      exact ⟨rfl, Bool.eq_false_iff.mpr hchild.1, hchild.2.symm⟩
  | create i =>
      right; left
      simp only [childStep, Option.ite_none_right_eq_some, Option.some.injEq] at hchild
      exact ⟨rfl, hchild.1.2.1, hchild.2.symm⟩
  | ring i moves =>
      right; right; left
      simp only [childStep, Option.ite_none_right_eq_some] at hchild
      obtain ⟨⟨-, -, hnot⟩, hmoved⟩ := hchild
      obtain ⟨ring, hring, rfl⟩ := Option.map_eq_some_iff.mp hmoved
      exact ⟨moves, ring, rfl, hnot, hring, rfl⟩
  | waits i =>
      right; right; right; left
      simp only [childStep] at hchild
      split at hchild
      · rename_i str hpc hnone
        simp only [Option.ite_none_right_eq_some] at hchild
        obtain ⟨hline, hwaits⟩ := hchild
        obtain ⟨after, hafter, rfl⟩ := Option.map_eq_some_iff.mp hwaits
        exact ⟨str, after, rfl, hpc, hline, hnone, hafter, rfl⟩
      · cases hchild
  | write i n =>
      right; right; right; right; left
      simp only [childStep] at hchild
      split at hchild
      · rename_i written rest hwriting
        exact ⟨n, written, rest, rfl, hwriting, (Option.some.inj hchild).symm⟩
      · cases hchild
  | signals i =>
      right; right; right; right; right
      simp only [childStep] at hchild
      split at hchild
      · rename_i written hwriting
        obtain ⟨ring, hring, rfl⟩ := Option.map_eq_some_iff.mp hchild
        exact ⟨written, ring, rfl, hwriting, hring, rfl⟩
      · cases hchild

theorem good_step (hsize : 0 < size) (hroom : ∀ found ∈ founds, Room size found) {event : Event}
    (h : Good ids size founds s) (hstep : step ids size s event = some t) :
    Good ids size founds t := by
  obtain ⟨i, c, hi, hcases⟩ := step_cases hstep
  rcases hcases with ⟨-, -, rfl⟩ | ⟨-, -, rfl⟩ | ⟨moves, ring, -, hnot, hring, rfl⟩ |
      ⟨str, after, -, hpc, hline, hnone, hafter, rfl⟩ | ⟨n, written, rest, -, hwriting, rfl⟩ |
      ⟨written, ring, -, hwriting, hring, rfl⟩
  · exact good_semIni h hi
  · exact good_create h hi _
  · exact good_ring hsize hroom h hi hnot hring
  · exact good_waits h hi hpc hline hnone hafter
  · exact good_write h hi hwriting n
  · exact good_signals hsize hroom h hi hwriting hring

theorem good_start (ids : Ids κ) (size : Nat) (founds : List (List (List MatchingLine)))
    (semval : κ → Nat) : Good ids size founds (start ids size founds semval) := by
  have hmem {c : Child κ} (hc : c ∈ (start ids size founds semval).children) :
      ∃ found, c = ⟨false, 0, Ring.start size found, none, fun _ => 0⟩ := by
    obtain ⟨found, -, rfl⟩ := List.mem_map.mp hc
    exact ⟨found, rfl⟩
  have hout : ∀ c ∈ (start ids size founds semval).children, c.inside = false := by
    intro c hc
    obtain ⟨found, rfl⟩ := hmem hc
    rfl
  have hcount : (start ids size founds semval).children.countP Child.inside = 0 := by
    rw [List.countP_eq_zero]
    exact fun c hc => Bool.eq_false_iff.mp (hout c hc)
  constructor
  · simp [start]
  · intro i c found hi hfound
    simp only [start, List.getElem?_map, hfound, Option.map_some, Option.some.injEq] at hi
    rw [← hi]
    exact ⟨⟨0, Ring.balanced_start size found, Ring.faithful_start size found⟩,
      Ring.drawn_start size found, by simp [Ring.start]⟩
  · rw [hcount]
    exact Function.update_self ..
  · intro c hc
    rw [hout c hc]
    obtain ⟨found, rfl⟩ := hmem hc
    rfl
  · intro c hc written rest hwriting
    obtain ⟨found, rfl⟩ := hmem hc
    cases hwriting
  · refine ⟨[], ?_, fun _ => rfl, ?_⟩
    · apply grows_nil
      simp [start, Ring.start]
    · intro c hc written rest hwriting
      obtain ⟨found, rfl⟩ := hmem hc
      cases hwriting

end Steps

end Cse420.Server.RingOutput
