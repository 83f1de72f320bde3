import Cse420.Server.RingOutput

/-!
The children of `server-rev1.c` come to their end. A child whose `Printer` waits
for the file waits for one that has it open, which needs nobody else; and the
bytes of the lines, with the steps of the threads, bound what there is to do.
-/

namespace Cse420.Server.RingOutput

open CMemory Machine SysVSem Interleaving
open Cse420.Server.Ring (MatchingLine exitchild toPut Room Sound Drawn distance)

variable {κ : Type} {ids : Ids κ} {size : Nat} {founds : List (List (List MatchingLine))}
  {s t : State κ} {i : Nat} {c next : Child κ}

section Work

/-- The bytes of all lines. -/
def bytes (founds : List (List (List MatchingLine))) : Nat :=
  (founds.flatten.flatten.map fun m => m.line.length).sum

/-- The steps that are left in `fileWriter`. -/
def fileLeft (c : Child κ) : Nat :=
  match c.writing with
  | some (_, rest) => rest.length + 1
  | none =>
      match c.ring.printer with
      | .fileWriter str => if str ≠ exitchild then str.length + 2 else 0
      | _ => 0

/-- The steps before a child if no line has more than `most` bytes. -/
def Child.left (most : Nat) (c : Child κ) : Nat :=
  (most + 3) * distance c.ring + fileLeft c + (c.ring.workers.length - c.threadCount) +
    (!c.begun).toNat

def State.left (most : Nat) (s : State κ) : Nat := (s.children.map (Child.left most)).sum

/-- The steps there are at the start. -/
def effort (founds : List (List (List MatchingLine))) : Nat :=
  (founds.map fun found => (bytes founds + 3) * (11 * (found.flatten.length + 1)) +
    found.length + 1).sum

theorem left_child (hi : s.children[i]? = some c) {most : Nat}
    (hless : next.left most < c.left most) (hchildren : t.children = s.children.set i next) :
    t.left most < s.left most := by
  have hsum := sum_map_set_add hi next (Child.left most)
  simp only [State.left, hchildren]
  omega

theorem line_le_bytes {found : List (List MatchingLine)} (hfound : found ∈ founds)
    {str : List UInt8} (hstr : str ∈ found.flatten.map MatchingLine.line) :
    str.length ≤ bytes founds := by
  obtain ⟨m, hm, rfl⟩ := List.mem_map.mp hstr
  apply List.le_sum_of_mem
  apply List.mem_map.mpr
  refine ⟨m, ?_, rfl⟩
  obtain ⟨lines, hlines, hm⟩ := List.mem_flatten.mp hm
  exact List.mem_flatten.mpr ⟨lines, List.mem_flatten.mpr ⟨found, hfound, hlines⟩, hm⟩

/-- A line that is written or is going to be is one of those that were found. -/
theorem Good.fileLeft_le (h : Good ids size founds s) (hi : s.children[i]? = some c) :
    fileLeft c ≤ bytes founds + 2 := by
  obtain ⟨found, hfound, hfed⟩ := h.found hi
  have hbound {str : List UInt8} (hpc : c.ring.printer = .fileWriter str)
      (hline : str ≠ exitchild) : str.length ≤ bytes founds :=
    line_le_bytes (List.mem_of_getElem? hfound) (Ring.printed_found hfed.sound hpc hline)
  cases hwriting : c.writing with
  | some w =>
      obtain ⟨hpc, hline⟩ := h.writing c (List.mem_of_getElem? hi) w.1 w.2 hwriting
      have hle := hbound hpc hline
      rw [List.length_append] at hle
      simp only [fileLeft, hwriting]
      omega
  | none =>
      simp only [fileLeft, hwriting]
      split
      · rename_i str hpc
        split
        · rename_i hline
          have hle := hbound hpc hline
          omega
        · omega
      · omega

theorem rooms (hfits : ∀ found ∈ founds, Fits size found) :
    ∀ found ∈ founds, Room size found := fun found hfound => (hfits found hfound).room

/-- A step of the buffer is worth more than all of `fileWriter`. -/
theorem left_of_distance {most : Nat} (hless : distance next.ring < distance c.ring)
    (hfile : fileLeft next ≤ most + 2) (hbegun : next.begun = c.begun)
    (hcount : next.threadCount = c.threadCount)
    (hworkers : next.ring.workers.length = c.ring.workers.length) :
    next.left most < c.left most := by
  have hmul : (most + 3) * (distance next.ring + 1) ≤ (most + 3) * distance c.ring :=
    Nat.mul_le_mul_left _ hless
  rw [Nat.mul_add, Nat.mul_one] at hmul
  simp only [Child.left, hbegun, hcount, hworkers]
  omega

variable [DecidableEq κ]

theorem left_semInis (most : Nat) (s : State κ) : (semInis ids s).left most = s.left most := by
  simp only [State.left, semInis, List.map_map]
  rfl

/-- Every step does a part of the work, except for a `write` of nothing. -/
theorem left_step (hsize : 0 < size) (hroom : ∀ found ∈ founds, Room size found)
    (h : Good ids size founds s) {event : Event} (hstep : step ids size s event = some t) :
    t.left (bytes founds) < s.left (bytes founds) ∨ (t = s ∧ ∃ i n, event = .write i n) := by
  have hgood := good_step hsize hroom h hstep
  obtain ⟨i, c, hi, hcases⟩ := step_cases hstep
  have hlt := (List.getElem?_eq_some_iff.mp hi).1
  obtain ⟨found, hfound, hfed⟩ := h.found hi
  have hsame {ring : Ring.State} {event : Ring.Event}
      (hring : Ring.step size c.ring event = some ring) :
      ring.workers.length = c.ring.workers.length :=
    (ring_moves hsize (hroom found (List.mem_of_getElem? hfound)) hring hfed).workers.trans
      hfed.workers.symm
  rcases hcases with ⟨-, hbegun, rfl⟩ | ⟨-, hmore, rfl⟩ | ⟨moves, ring, -, -, hring, rfl⟩ |
      ⟨str, after, -, hpc, hline, hnone, -, rfl⟩ | ⟨n, written, rest, rfl, hwriting, rfl⟩ |
      ⟨written, ring, -, hwriting, hring, rfl⟩
  · left
    rw [left_semInis]
    apply left_child hi _ rfl
    simp [Child.left, fileLeft, hbegun]
  · left
    apply left_child hi _ rfl
    simp only [Child.left, fileLeft]
    omega
  · left
    have hget : (s.setChild i { c with ring }).children[i]? = some { c with ring } := by
      simp [State.setChild, hlt]
    apply left_child hi _ rfl
    exact left_of_distance (Ring.step_distance hfed.sound hring) (hgood.fileLeft_le hget) rfl rfl
      (hsame hring)
  · left
    apply left_child hi _ rfl
    simp [Child.left, fileLeft, hnone, hpc, hline]
  · by_cases hnothing : rest.take n = []
    · right
      have hrest : rest.drop n = rest := by
        have hsplit := List.take_append_drop n rest
        rw [hnothing] at hsplit
        exact hsplit
      have hsame : s.children.set i { c with writing := some (written, rest) } = s.children := by
        rw [← hwriting]
        exact set_same hi
      refine ⟨?_, i, n, rfl⟩
      simp only [State.setChild, hnothing, hrest, List.append_nil, hsame]
    · left
      apply left_child hi _ rfl
      have hpos := List.length_pos_of_ne_nil hnothing
      rw [List.length_take] at hpos
      simp only [Child.left, fileLeft, hwriting, List.length_drop]
      omega
  · left
    have hget : ({ s with
        semval := (SysVSem.signals ids.SEMbuf s.semval c.semadj).1 }.setChild i { c with
          ring
          writing := none
          semadj := (SysVSem.signals ids.SEMbuf s.semval c.semadj).2 }).children[i]? =
        some { c with
          ring
          writing := none
          semadj := (SysVSem.signals ids.SEMbuf s.semval c.semadj).2 } := by
      simp [State.setChild, hlt]
    apply left_child hi _ rfl
    exact left_of_distance (Ring.step_distance hfed.sound hring) (hgood.fileLeft_le hget) rfl rfl
      (hsame hring)

end Work

section Progress

variable [DecidableEq κ]

theorem step_child (hi : s.children[i]? = some c) {event : Event} (hevent : event.child = i) :
    step ids size s event = childStep ids size s i c event := by
  simp [step, hevent, hi]

/-- Some step does a part of the work. -/
def Moves (ids : Ids κ) (size : Nat) (founds : List (List (List MatchingLine))) (s : State κ) :
    Prop :=
  ∃ event next, step ids size s event = some next ∧
    State.left (bytes founds) next < State.left (bytes founds) s

theorem moves_of_step (hsize : 0 < size) (hroom : ∀ found ∈ founds, Room size found)
    (h : Good ids size founds s) {event : Event} (hstep : step ids size s event = some t)
    (hchanges : t ≠ s ∨ ∀ i n, event ≠ .write i n) : Moves ids size founds s := by
  rcases left_step hsize hroom h hstep with hless | ⟨hsame, i, n, hwrite⟩
  · exact ⟨event, t, hstep, hless⟩
  · rcases hchanges with hne | hnot
    · exact absurd hsame hne
    · exact absurd hwrite (hnot i n)

/-- A child that has the file open needs nobody else. -/
theorem moves_of_inside (hsize : 0 < size) (hroom : ∀ found ∈ founds, Room size found)
    (h : Good ids size founds s) (hi : s.children[i]? = some c) (hinside : c.inside = true) :
    Moves ids size founds s := by
  obtain ⟨written, rest, hwriting⟩ := writing_of_inside hinside
  cases rest with
  | nil =>
      obtain ⟨hpc, hline⟩ := h.writing c (List.mem_of_getElem? hi) written [] hwriting
      rw [List.append_nil] at hpc hline
      obtain ⟨t, ht⟩ : ∃ t, step ids size s (.signals i) = some t := by
        rw [step_child hi rfl]
        simp only [childStep, hwriting, ring_printed hpc hline, Option.map_some]
        exact ⟨_, rfl⟩
      exact moves_of_step hsize hroom h ht (.inr (by simp))
  | cons b rest =>
      obtain ⟨t, ht, hlonger⟩ : ∃ t, step ids size s (.write i (b :: rest).length) = some t ∧
          s.output.length < t.output.length := by
        rw [step_child hi rfl]
        simp only [childStep, hwriting]
        exact ⟨_, rfl, by simp⟩
      apply moves_of_step hsize hroom h ht
      left
      intro hsame
      rw [hsame] at hlonger
      exact Nat.lt_irrefl _ hlonger

omit [DecidableEq κ] in
/-- When `openDir` has come to its end no thread is missing. -/
theorem created_of_step {event : Ring.Event} {ring : Ring.State}
    (hall : c.ring.workers.length ≤ c.threadCount)
    (hring : Ring.step size c.ring event = some ring) : c.created event = true := by
  cases event with
  | worker k =>
      obtain ⟨p, shared, moved, hk, -, -⟩ := Ring.worker_cases hring
      have hlt := (List.getElem?_eq_some_iff.mp hk).1
      exact decide_eq_true (by omega)
  | closing => exact decide_eq_true hall
  | printer => rfl

/-- As long as some `Printer` has not stopped, something can be done. -/
theorem moves_of_running (hsize : 0 < size) (hfits : ∀ found ∈ founds, Fits size found)
    (h : Good ids size founds s) (hi : s.children[i]? = some c)
    (hrunning : c.ring.printer ≠ .stopped) : Moves ids size founds s := by
  have hroom := rooms hfits
  by_cases hsome : ∃ d ∈ s.children, d.inside = true
  · obtain ⟨d, hd, hinside⟩ := hsome
    obtain ⟨k, hk⟩ := List.getElem?_of_mem hd
    exact moves_of_inside hsize hroom h hk hinside
  · have hnone : c.writing = none := by
      cases hwriting : c.writing with
      | none => rfl
      | some w => exact absurd ⟨c, List.mem_of_getElem? hi, inside_of_writing hwriting⟩ hsome
    cases hbegun : c.begun with
    | false =>
        obtain ⟨t, ht⟩ : ∃ t, step ids size s (.semIni i) = some t := by
          rw [step_child hi rfl]
          simp [childStep, hbegun]
        exact moves_of_step hsize hroom h ht (.inr (by simp))
    | true =>
        obtain ⟨found, hfound, hfed⟩ := h.found hi
        have hfit := hfits found (List.mem_of_getElem? hfound)
        obtain ⟨event, ring, hring⟩ := Ring.sound_enabled hsize hfit.room hfed.sound hrunning
        cases hnot : inFileWriter c.ring event with
        | false =>
            by_cases hmore : c.threadCount < c.ring.workers.length
            · have hslot : c.threadCount < MAXTHREADS := by
                have hthreads := hfit.threads
                have hworkers := hfed.workers
                omega
              obtain ⟨t, ht⟩ : ∃ t, step ids size s (.create i) = some t := by
                rw [step_child hi rfl]
                simp [childStep, hbegun, hmore, hslot]
              exact moves_of_step hsize hroom h ht (.inr (by simp))
            · have hcreated := created_of_step (Nat.not_lt.mp hmore) hring
              obtain ⟨t, ht⟩ : ∃ t, step ids size s (.ring i event) = some t := by
                rw [step_child hi rfl]
                simp [childStep, hbegun, hcreated, hnot, hring]
              exact moves_of_step hsize hroom h ht (.inr (by simp))
        | true =>
            -- nobody has the file open, so the semaphore is free
            obtain ⟨str, hpc, hline⟩ : ∃ str, c.ring.printer = .fileWriter str ∧
                str ≠ exitchild := by
              unfold inFileWriter at hnot
              split at hnot
              · split at hnot
                · exact ⟨_, ‹_›, by simpa using hnot⟩
                · cases hnot
              · cases hnot
            have hfree : 0 < s.semval ids.SEMbuf := by
              have hlocked := h.locked
              have hcount : s.children.countP Child.inside = 0 := by
                rw [List.countP_eq_zero]
                exact fun d hd hin => hsome ⟨d, hd, hin⟩
              omega
            obtain ⟨t, ht⟩ : ∃ t, step ids size s (.waits i) = some t := by
              rw [step_child hi rfl]
              simp [childStep, hpc, hnone, hline, SysVSem.waits, hfree]
            exact moves_of_step hsize hroom h ht (.inr (by simp))

/-- The step does something. -/
def Changes (ids : Ids κ) (size : Nat) (s : State κ) (event : Event) : Prop :=
  step ids size s event ≠ some s

/-- No step does anything. -/
def Stuck (ids : Ids κ) (size : Nat) (s : State κ) : Prop :=
  ∀ event next, step ids size s event = some next → next = s

theorem left_start (ids : Ids κ) (size : Nat) (founds : List (List (List MatchingLine)))
    (semval : κ → Nat) :
    (start ids size founds semval).left (bytes founds) = effort founds := by
  simp only [State.left, start, List.map_map, effort]
  apply congrArg List.sum
  apply List.map_congr_left
  intro found _
  have hworkers : (Ring.start size found).workers.length = found.length := by simp [Ring.start]
  simp only [Function.comp_apply, Child.left, Ring.distance_start, hworkers]
  rfl

/-- When no step does anything any more, every `Printer` has stopped and the file
holds the lines that were found. -/
theorem Good.stuck (hsize : 1 ≤ size) (hfits : ∀ found ∈ founds, Fits size found)
    (h : Good ids size founds s) (hstuck : Stuck ids size s) :
    (∀ c ∈ s.children, c.ring.printer = .stopped) ∧
      ∃ lines : List (List UInt8), s.output = lines.flatten ∧
        Interleaves (founds.flatten.map (List.map MatchingLine.line)) lines := by
  have hstopped : ∀ c ∈ s.children, c.ring.printer = .stopped := by
    intro c hc
    obtain ⟨i, hi⟩ := List.getElem?_of_mem hc
    by_contra hrunning
    obtain ⟨event, next, hstep, hless⟩ := moves_of_running hsize hfits h hi hrunning
    rw [hstuck event next hstep] at hless
    exact Nat.lt_irrefl _ hless
  refine ⟨hstopped, ?_⟩
  obtain ⟨lines, hfiled⟩ := h.file
  refine ⟨lines, ?_, ?_⟩
  · apply hfiled.closed
    intro c hc
    cases hwriting : c.writing with
    | none => simp [Child.inside, hwriting]
    | some w =>
        obtain ⟨hpc, -⟩ := h.writing c hc w.1 w.2 hwriting
        rw [hstopped c hc] at hpc
        cases hpc
  · have hnested : Interleaves (founds.map toPut).flatten lines := by
      apply hfiled.handed.interleaves.nested
      · simp [h.length]
      · intro i parts out hparts hout
        simp only [List.getElem?_map, Option.map_eq_some_iff] at hparts hout
        obtain ⟨found, hfound, rfl⟩ := hparts
        obtain ⟨c, hi, rfl⟩ := hout
        obtain ⟨hsound, hdrawn⟩ := h.rings i c found hi hfound
        exact Ring.drawn_stopped hsound hdrawn (hstopped c (List.mem_of_getElem? hi))
    rw [List.map_flatten]
    exact hnested

theorem good_run (hsize : 1 ≤ size) (hfits : ∀ found ∈ founds, Fits size found)
    {semval : κ → Nat} {schedule : List Event}
    (hrun : run (step ids size) (start ids size founds semval) schedule = some s) :
    Good ids size founds s :=
  run_invariant (Good ids size founds)
    (fun _ _ _ hu hstep => good_step hsize (rooms hfits) hu hstep)
    (good_start ids size founds semval) hrun

/-- Several requests whose workers and lines have room in `tids` and in the buffers.
Whatever the schedule, the children come to their end: a run in which every step does
something is no longer than the work there is, and when no step does anything any
more, every `Printer` has stopped and `output.txt` holds the lines that were
found, each of them whole and once, those of one file in their order. -/
theorem children_write_lines (ids : Ids κ) (size : Nat) (hsize : 1 ≤ size)
    (founds : List (List (List MatchingLine))) (hfits : ∀ found ∈ founds, Fits size found)
    (semval : κ → Nat) (schedule : List Event) (s : State κ)
    (hrun : run (step ids size) (start ids size founds semval) schedule = some s) :
    (Along (step ids size) (Changes ids size) (start ids size founds semval) schedule →
        schedule.length ≤ effort founds) ∧
      (Stuck ids size s → (∀ c ∈ s.children, c.ring.printer = .stopped) ∧
        ∃ lines : List (List UInt8), s.output = lines.flatten ∧
          Interleaves (founds.flatten.map (List.map MatchingLine.line)) lines) := by
  refine ⟨?_, (good_run hsize hfits hrun).stuck hsize hfits⟩
  intro hall
  have hlength := run_length_le (Good ids size founds) (State.left (bytes founds)) (by
    intro u event next hu hchanges hstep
    refine ⟨good_step hsize (rooms hfits) hu hstep, ?_⟩
    rcases left_step hsize (rooms hfits) hu hstep with hless | ⟨rfl, -⟩
    · exact hless
    · exact absurd hstep hchanges) (good_start ids size founds semval) hall hrun
  rw [left_start] at hlength
  omega

/-- The end can be reached. -/
theorem reaches_stuck (hsize : 0 < size) (hfits : ∀ found ∈ founds, Fits size found)
    (h : Good ids size founds s) : ∃ later t, run (step ids size) s later = some t ∧
      Stuck ids size t := by
  apply run_reaches (Good ids size founds) (State.left (bytes founds)) _ s h
  intro u hu hnot
  simp only [Stuck, not_forall] at hnot
  obtain ⟨event, next, hstep, hne⟩ := hnot
  refine ⟨event, next, hstep, good_step hsize (rooms hfits) hu hstep, ?_⟩
  rcases left_step hsize (rooms hfits) hu hstep with hless | ⟨hsame, -⟩
  · exact hless
  · exact absurd hsame hne

/-- Two requests, the first for a directory with two files. -/
def twoFounds : List (List (List MatchingLine)) :=
  [[[⟨text "f", 1, text "w"⟩, ⟨text "f", 3, text "w"⟩], [⟨text "g", 2, text "w"⟩]],
    [[⟨text "h", 1, text "w"⟩]]]

def twoIds : Ids Bool := ⟨true, false, by decide⟩

theorem children_write_lines_two :
    ∃ schedule s, run (step twoIds 10) (start twoIds 10 twoFounds fun _ => 0) schedule = some s ∧
      ∃ lines : List (List UInt8), s.output = lines.flatten ∧
        Interleaves [[text "f:1:w", text "f:3:w"], [text "g:2:w"], [text "h:1:w"]] lines := by
  have hfits : ∀ found ∈ twoFounds, Fits 10 found := by decide
  obtain ⟨schedule, s, hrun, hstuck⟩ := reaches_stuck (by decide) hfits
    (good_start twoIds 10 twoFounds fun _ => 0)
  obtain ⟨lines, houtput, hlines⟩ := ((children_write_lines twoIds 10 (by decide) twoFounds hfits
    (fun _ => 0) schedule s hrun).2 hstuck).2
  have hfound : twoFounds.flatten.map (List.map MatchingLine.line) =
      [[text "f:1:w", text "f:3:w"], [text "g:2:w"], [text "h:1:w"]] := by decide
  rw [hfound] at hlines
  exact ⟨schedule, s, hrun, lines, houtput, hlines⟩

end Progress

end Cse420.Server.RingOutput
