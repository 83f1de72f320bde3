import Cse420.Lib.Interleaving
import Cse420.Server.RingOrder

/-!
The order of the lines that a child of `server-rev1.c` writes when its buffer is
large enough. The lines of one file stay in their order; those of different files
come in between each other, since every line is put on its own.
-/

namespace Cse420.Server.Ring

open CMemory Machine RingBuffer Interleaving

variable {size : Nat} {found : List (List MatchingLine)} {s t : State}

/-- What the workers are going to put. -/
def toPut (found : List (List MatchingLine)) : List (List (List UInt8)) :=
  found.map (List.map MatchingLine.line)

/-- What was put comes from the workers, each of which has put the first of its
lines, and at last from `ChildsPlay`. -/
def Drawn (found : List (List MatchingLine)) (s : State) : Prop :=
  ∃ puts, Leads (toPut found) puts (s.workers.map Producer.lines) ∧
    ((s.shared.putLog = puts ∧ s.closing.lines = [exitchild]) ∨
      (s.shared.putLog = puts ++ [exitchild] ∧ s.closing.lines = []))

theorem drawn_start (size : Nat) (found : List (List MatchingLine)) :
    Drawn found (start size found) := by
  refine ⟨[], ?_, .inl ⟨rfl, rfl⟩⟩
  have hlines : (start size found).workers.map Producer.lines = toPut found := by
    simp [start, toPut, Function.comp_def]
  rw [hlines]
  exact Leads.refl _

/-- A worker that moves has not been joined, so `ChildsPlay` has not put yet. -/
theorem closing_waits {i : Nat} {p next : Producer} {shared : Shared} (h : Sound size found s)
    (hi : s.workers[i]? = some p) (hp : produce size s.shared p = some (shared, next)) :
    s.closing.lines = [exitchild] := by
  obtain ⟨gets, -, hf⟩ := h
  have hclosing : s.closing = ⟨.waitEmpty, [exitchild]⟩ := by
    by_contra hne
    have hall := hf.joined hne
    have hfinished := List.all_eq_true.mp hall p (List.mem_of_getElem? hi)
    rw [finished_no_step hfinished] at hp
    cases hp
  rw [hclosing]

theorem drawn_step {event : Event} (hsound : Sound size found s) (h : Drawn found s)
    (hstep : step size s event = some t) : Drawn found t := by
  obtain ⟨puts, hleads, hlog⟩ := h
  cases event with
  | worker i =>
      obtain ⟨p, shared, next, hi, hp, rfl⟩ := worker_cases hstep
      have hwaits := closing_waits hsound hi hp
      have hputs : s.shared.putLog = puts := by
        rcases hlog with ⟨hlog, -⟩ | ⟨-, hnone⟩
        · exact hlog
        · rw [hnone] at hwaits
          cases hwaits
      rcases (produce_spec hp).ring with ⟨hsame, -, -, hlines⟩ | ⟨line, hlines, hput, -⟩
      · refine ⟨puts, ?_, .inl ⟨hsame.trans hputs, hwaits⟩⟩
        rw [map_set_same hi Producer.lines hlines]
        exact hleads
      · refine ⟨puts ++ [line], ?_, .inl ⟨?_, hwaits⟩⟩
        · rw [List.map_set]
          apply hleads.take
          rw [List.getElem?_map, hi, Option.map_some, hlines]
        · rw [hput, hputs]
  | closing =>
      obtain ⟨shared, next, -, hp, rfl⟩ := closing_cases hstep
      refine ⟨puts, hleads, ?_⟩
      rcases (produce_spec hp).ring with ⟨hsame, -, -, hlines⟩ | ⟨line, hlines, hput, -⟩
      · rw [hsame, hlines]
        exact hlog
      · rcases hlog with ⟨hlog, hone⟩ | ⟨-, hnone⟩
        · rw [hone, List.cons.injEq] at hlines
          exact .inr ⟨by rw [hput, hlog, hlines.1], hlines.2.symm⟩
        · rw [hnone] at hlines
          cases hlines
  | printer =>
      obtain ⟨shared, printer, output, hc, rfl⟩ := printer_cases hstep
      refine ⟨puts, hleads, ?_⟩
      rw [(consume_spec hc).putLog]
      exact hlog

/-- The end of `Printer`: all workers were joined and had put their lines. -/
theorem drawn_stopped (hsound : Sound size found s) (h : Drawn found s)
    (hstop : s.printer = .stopped) : Interleaves (toPut found) s.output := by
  have hend := (sound_stopped hsound hstop).1
  obtain ⟨gets, -, hf⟩ := hsound
  obtain ⟨puts, hleads, hlog⟩ := h
  rcases hlog with ⟨-, hone⟩ | ⟨hlog, hnone⟩
  · exfalso
    rcases hf.closing with ⟨-, hnot⟩ | ⟨hnone, -⟩
    · rw [hend] at hnot
      exact hnot (by simp)
    · rw [hone] at hnone
      cases hnone
  · have hsame : puts = s.output := List.append_cancel_right (hlog.symm.trans hend)
    rw [← hsame]
    apply hleads.interleaves
    have hall := hf.joined (by
      intro hclosing
      rw [hclosing] at hnone
      cases hnone)
    intro part hpart
    obtain ⟨p, hp, rfl⟩ := List.mem_map.mp hpart
    have hfinished := List.all_eq_true.mp hall p hp
    simp only [Producer.finished, Bool.and_eq_true, List.isEmpty_iff] at hfinished
    exact hfinished.2

/-- The steps of a child: eleven for every line and for `exitchild`. -/
theorem distance_start (size : Nat) (found : List (List MatchingLine)) :
    distance (start size found) = 11 * (found.flatten.length + 1) := by
  have hworkers : ((start size found).workers.map Producer.weight).sum =
      11 * found.flatten.length := by
    simp only [start, List.map_map, Function.comp_def, Producer.weight, List.length_map,
      List.length_flatten, List.sum_map_mul_left]
  rw [distance, hworkers]
  simp only [start, Producer.weight, PrinterPc.weight, List.length_singleton]
  omega

/-- What `Printer` hands on is a line that some worker found. -/
theorem printed_found {str : List UInt8} (h : Sound size found s)
    (hpc : s.printer = .fileWriter str) (hline : str ≠ exitchild) :
    str ∈ found.flatten.map MatchingLine.line := by
  obtain ⟨gets, -, hf⟩ := h
  have htaken := hf.taken
  rw [hpc] at htaken
  simp only [fetched] at htaken
  have hput : str ∈ s.shared.putLog := by
    apply List.mem_of_mem_take
    rw [htaken]
    simp
  have hmem := hf.lines.subset (List.mem_append_left _ hput)
  rw [List.mem_append, List.mem_singleton] at hmem
  rcases hmem with hmem | hexit
  · exact hmem
  · exact absurd hexit hline

end Cse420.Server.Ring
