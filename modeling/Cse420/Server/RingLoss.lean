import Cse420.Server.RingOrder

/-!
How the bounded buffer loses lines when it has too few slots. Take the lines
out one by one until as many are left as the buffer has slots; then put all the
rest and the string that stops `Printer` without taking anything out. The last
string lands in the slot `Printer` reads next.
-/

namespace Cse420.Server.Ring

open CMemory Machine RingBuffer

/-- No thread is inside a section, and the workers have `left` lines to put. -/
structure Idle (s : State) (left : Nat) : Prop where
  workers : ∀ p ∈ s.workers, p.pc = .waitEmpty
  clean : ∀ p ∈ s.workers, exitchild ∉ p.lines
  left : (s.workers.map fun p => p.lines.length).sum = left
  closing : s.closing = ⟨.waitEmpty, [exitchild]⟩
  log : exitchild ∉ s.shared.putLog
  printer : s.printer = .waitFull

theorem idle_start (size : Nat) (found : List (List MatchingLine)) :
    Idle (start size found) found.flatten.length := by
  have hf := faithful_start size found
  constructor
  · intro p hp
    obtain ⟨lines, -, rfl⟩ := List.mem_map.mp hp
    rfl
  · exact hf.clean
  · simp [start, List.length_flatten, Function.comp_def]
  · rfl
  · simp [start]
  · rfl

theorem Idle.count {s : State} {left : Nat} (h : Idle s left) (q : Producer → Bool)
    (hq : ∀ p : Producer, p.pc = .waitEmpty → q p = false) : s.count q = 0 := by
  have hnone : s.workers.countP q = 0 := by
    rw [List.countP_eq_zero]
    intro p hp
    simp [hq p (h.workers p hp)]
  have hlast : q s.closing = false := hq _ (by rw [h.closing])
  simp [State.count, hnone, hlast]

/-- Between the sections the semaphores are what one expects. -/
theorem Idle.semaphores {size : Nat} {s : State} {left gets : Nat} (h : Idle s left)
    (hb : Balanced size s gets) :
    s.shared.mutex = 1 ∧ s.shared.empty + s.shared.full = 10 ∧
      s.shared.putLog.length = gets + s.shared.full := by
  have hmutex := hb.mutex
  have hslots := hb.slots
  have hputs := hb.puts
  rw [h.count _ (fun p hpc => by simp [Producer.holds, hpc]), h.printer] at hmutex
  rw [h.count _ (fun p hpc => by simp [Producer.took, hpc]),
    h.count _ (fun p hpc => by simp [Producer.placed, hpc]), h.printer] at hslots
  rw [h.count _ (fun p hpc => by simp [Producer.placed, hpc]), h.printer] at hputs
  simp only [PrinterPc.holds, PrinterPc.busy, PrinterPc.took, Bool.toNat_false] at *
  omega

/-- The shared state after a whole section around `put`. -/
def Shared.putOne (size : Nat) (sh : Shared) (line : List UInt8) : Shared :=
  { sh with
    empty := sh.empty - 1
    full := sh.full + 1
    buffer := sh.buffer.set sh.curPut (some line)
    curPut := advance size sh.curPut
    putLog := sh.putLog ++ [line] }

/-- So many steps of one producer without any other thread in between. -/
def produceTimes (size : Nat) : Nat → Shared → Producer → Option (Shared × Producer)
  | 0, sh, p => some (sh, p)
  | n + 1, sh, p => (produce size sh p).bind fun (sh, p) => produceTimes size n sh p

theorem produceTimes_section (size : Nat) {sh : Shared} (line : List UInt8)
    (rest : List (List UInt8)) (hmutex : sh.mutex = 1) (hempty : 0 < sh.empty)
    (hput : sh.curPut < sh.buffer.length) :
    produceTimes size 5 sh ⟨.waitEmpty, line :: rest⟩ =
      some (sh.putOne size line, ⟨.waitEmpty, rest⟩) := by
  simp [produceTimes, produce, hempty, hmutex, put, hput, Shared.putOne]

theorem run_worker {size n : Nat} {s : State} {i : Nat} {p next : Producer} {shared : Shared}
    (hi : s.workers[i]? = some p)
    (hp : produceTimes size n s.shared p = some (shared, next)) :
    run (step size) s (List.replicate n (.worker i)) =
      some { s with shared := shared, workers := s.workers.set i next } := by
  obtain ⟨hlt, hget⟩ := List.getElem?_eq_some_iff.mp hi
  induction n generalizing s p with
  | zero =>
      cases hp
      rw [← hget, List.set_getElem_self]
      rfl
  | succ n ih =>
      obtain ⟨⟨sh, q⟩, hq, hrest⟩ := Option.bind_eq_some_iff.mp hp
      have hstep : step size s (.worker i) =
          some { s with shared := sh, workers := s.workers.set i q } := by
        simp only [step, hi, hq, Option.bind_eq_bind, Option.bind_some]
        rfl
      have hself : (s.workers.set i q)[i]? = some q := List.getElem?_set_self hlt
      rw [List.replicate_succ, run, hstep, Option.bind_some]
      rw [ih hself hrest (by simpa using hlt) (by simp)]
      simp

theorem run_closing {size n : Nat} {s : State} {next : Producer} {shared : Shared}
    (hall : s.workers.all Producer.finished = true)
    (hp : produceTimes size n s.shared s.closing = some (shared, next)) :
    run (step size) s (List.replicate n .closing) =
      some { s with shared := shared, closing := next } := by
  induction n generalizing s with
  | zero =>
      cases hp
      rfl
  | succ n ih =>
      obtain ⟨⟨sh, q⟩, hq, hrest⟩ := Option.bind_eq_some_iff.mp hp
      have hstep : step size s .closing = some { s with shared := sh, closing := q } := by
        simp only [step, hall, if_true, hq, Option.bind_eq_bind, Option.bind_some]
        rfl
      rw [List.replicate_succ, run, hstep, Option.bind_some]
      exact ih hall hrest

/-- One round of the loop of `Printer`. -/
theorem printer_section (size : Nat) {s : State} {str : List UInt8}
    (hprinter : s.printer = .waitFull) (hmutex : s.shared.mutex = 1)
    (hfull : 0 < s.shared.full) (hslot : s.shared.buffer[s.shared.curGet]? = some (some str)) :
    run (step size) s (List.replicate 6 .printer) = some { s with
      shared := { s.shared with
        empty := s.shared.empty + 1
        full := s.shared.full - 1
        curGet := advance size s.shared.curGet }
      printer := if str ≠ exitchild then .waitFull else .stopped
      output := if str ≠ exitchild then s.output ++ [str] else s.output } := by
  simp [List.replicate, run, step, hprinter, consume, hfull, hmutex, getitem, hslot]

theorem printer_stops (size : Nat) {s : State} (hprinter : s.printer = .waitFull)
    (hmutex : s.shared.mutex = 1) (hfull : 0 < s.shared.full)
    (hslot : s.shared.buffer[s.shared.curGet]? = some (some exitchild)) :
    ∃ t, run (step size) s (List.replicate 6 .printer) = some t ∧ t.printer = .stopped ∧
      t.output = s.output := by
  rw [printer_section size hprinter hmutex hfull hslot]
  exact ⟨_, rfl, by simp, by simp⟩

theorem balanced_run {size : Nat} (hsize : 0 < size) {s t : State} {gets : Nat}
    {schedule : List Event} (h : Balanced size s gets)
    (hrun : run (step size) s schedule = some t) : ∃ after, Balanced size t after :=
  run_invariant (fun u => ∃ after, Balanced size u after)
    (fun _ _ _ hu hstep => hu.elim fun _ hb => balanced_step hsize hb hstep) ⟨gets, h⟩ hrun

theorem Balanced.put_room {size : Nat} {s : State} {gets : Nat} (hsize : 0 < size)
    (h : Balanced size s gets) : s.shared.curPut < s.shared.buffer.length := by
  rw [h.put_at, h.recent.1]
  exact Nat.mod_lt _ hsize

/-- One more line is put while nothing is taken out. -/
theorem idle_put {size : Nat} (hsize : 0 < size) {s : State} {left gets : Nat}
    (h : Idle s (left + 1)) (hb : Balanced size s gets) (hfull : s.shared.full < 10) :
    ∃ schedule t, run (step size) s schedule = some t ∧ Idle t left ∧
      Balanced size t gets ∧ t.shared.full = s.shared.full + 1 ∧ t.output = s.output := by
  obtain ⟨hmutex, hempty, hlen⟩ := h.semaphores hb
  obtain ⟨p, hp, hlines⟩ : ∃ p ∈ s.workers, p.lines ≠ [] := by
    by_contra hnone
    have hzero : (s.workers.map fun p => p.lines.length).sum = 0 := by
      rw [List.sum_eq_zero_iff]
      intro n hn
      obtain ⟨p, hp, rfl⟩ := List.mem_map.mp hn
      by_contra hne
      exact hnone ⟨p, hp, fun hnil => hne (by rw [hnil]; rfl)⟩
    have := h.left
    omega
  obtain ⟨i, hi⟩ := List.mem_iff_getElem?.mp hp
  obtain ⟨pc, lines⟩ := p
  cases lines with
  | nil => exact absurd rfl hlines
  | cons line rest =>
      have hpc : pc = .waitEmpty := h.workers _ hp
      subst hpc
      have hrun := run_worker hi
        (produceTimes_section size line rest hmutex (by omega) (hb.put_room hsize))
      have hidle : Idle { s with
          shared := s.shared.putOne size line
          workers := s.workers.set i ⟨.waitEmpty, rest⟩ } left := by
        have hclean := h.clean _ hp
        simp only [List.mem_cons, not_or] at hclean
        constructor
        · intro q hq
          rcases List.mem_or_eq_of_mem_set hq with hq | rfl
          · exact h.workers q hq
          · rfl
        · intro q hq
          rcases List.mem_or_eq_of_mem_set hq with hq | rfl
          · exact h.clean q hq
          · exact hclean.2
        · have hsum := sum_map_set_add hi ⟨.waitEmpty, rest⟩ fun p => p.lines.length
          have hleft := h.left
          simp only [List.length_cons] at hsum
          dsimp only
          omega
        · exact h.closing
        · simp only [Shared.putOne, List.mem_append, List.mem_singleton, not_or]
          exact ⟨h.log, hclean.1⟩
        · exact h.printer
      obtain ⟨after, hafter⟩ := balanced_run hsize hb hrun
      obtain ⟨-, -, hlen'⟩ := hidle.semaphores hafter
      simp only [Shared.putOne, List.length_append, List.length_singleton] at hlen'
      have hsame : after = gets := by omega
      exact ⟨_, _, hrun, hidle, hsame ▸ hafter, rfl, rfl⟩

/-- `Printer` takes one string out that was not overwritten. -/
theorem idle_get {size : Nat} (hsize : 0 < size) {s : State} {left gets : Nat}
    (h : Idle s left) (hb : Balanced size s gets) (hfull : 0 < s.shared.full)
    (hroom : s.shared.full ≤ size) :
    ∃ schedule t, run (step size) s schedule = some t ∧ Idle t left ∧
      Balanced size t (gets + 1) ∧ t.shared.full = s.shared.full - 1 ∧
      t.output.length = s.output.length + 1 := by
  obtain ⟨hmutex, -, hlen⟩ := h.semaphores hb
  obtain ⟨str, hstr⟩ : ∃ str, s.shared.putLog[gets]? = some str :=
    ⟨_, List.getElem?_eq_getElem (by omega)⟩
  have hslot : s.shared.buffer[s.shared.curGet]? = some (some str) := by
    rw [hb.get_at]
    exact hb.recent.2 gets str hstr (by omega)
  have hne : str ≠ exitchild := by
    rintro rfl
    exact h.log (List.mem_of_getElem? hstr)
  have hrun := printer_section size h.printer hmutex hfull hslot
  simp only [ne_eq, hne, not_false_eq_true, if_true] at hrun
  have hidle : Idle { s with
      shared := { s.shared with
        empty := s.shared.empty + 1
        full := s.shared.full - 1
        curGet := advance size s.shared.curGet }
      printer := .waitFull
      output := s.output ++ [str] } left :=
    ⟨h.workers, h.clean, h.left, h.closing, h.log, rfl⟩
  obtain ⟨after, hafter⟩ := balanced_run hsize hb hrun
  obtain ⟨-, -, hlen'⟩ := hidle.semaphores hafter
  dsimp only at hlen'
  have hsame : after = gets + 1 := by omega
  exact ⟨_, _, hrun, hidle, hsame ▸ hafter, rfl, by simp⟩

/-- Lines can be taken out one by one. -/
theorem pass_lines {size : Nat} (hsize : 0 < size) (found : List (List MatchingLine))
    (k left : Nat) (hk : k + left = found.flatten.length) :
    ∃ schedule t, run (step size) (start size found) schedule = some t ∧ Idle t left ∧
      Balanced size t k ∧ t.shared.full = 0 ∧ t.output.length = k := by
  induction k generalizing left with
  | zero =>
      refine ⟨[], _, rfl, ?_, balanced_start size found, rfl, rfl⟩
      rw [Nat.zero_add] at hk
      rw [hk]
      exact idle_start size found
  | succ k ih =>
      obtain ⟨before, s, hrun, hidle, hb, hfull, hout⟩ := ih (left + 1) (by omega)
      obtain ⟨puts, t, hput, hidle, hb, hone, hsame⟩ := idle_put hsize hidle hb (by omega)
      obtain ⟨gets, u, hget, hidle, hb, hnone, hmore⟩ :=
        idle_get hsize hidle hb (by omega) (by omega)
      refine ⟨before ++ (puts ++ gets), u, ?_, hidle, hb, by omega, by rw [hmore, hsame, hout]⟩
      rw [run_append, hrun, Option.bind_some, run_append, hput]
      exact hget

/-- Up to ten lines can be put while nothing is taken out. -/
theorem fill_lines {size : Nat} (hsize : 0 < size) {s : State} {left gets : Nat} (m : Nat)
    (h : Idle s (left + m)) (hb : Balanced size s gets) (hm : s.shared.full + m ≤ 10) :
    ∃ schedule t, run (step size) s schedule = some t ∧ Idle t left ∧
      Balanced size t gets ∧ t.shared.full = s.shared.full + m ∧ t.output = s.output := by
  induction m generalizing s with
  | zero => exact ⟨[], s, rfl, h, hb, rfl, rfl⟩
  | succ m ih =>
      obtain ⟨first, t, hfirst, hidle, hb, hfull, hout⟩ :=
        idle_put hsize (show Idle s (left + m + 1) from h) hb (by omega)
      obtain ⟨rest, u, hrest, hidle, hb, hfull', hout'⟩ := ih hidle hb (by omega)
      refine ⟨first ++ rest, u, ?_, hidle, hb, by omega, by rw [hout', hout]⟩
      rw [run_append, hfirst]
      exact hrest

/-- With too few slots there is a schedule after which `Printer` has stopped and
has not written every line. -/
theorem lines_lost {size : Nat} (hsize : 0 < size) {found : List (List MatchingLine)}
    (hroom : ¬ Room size found) :
    ∃ schedule t, run (step size) (start size found) schedule = some t ∧
      t.printer = .stopped ∧ t.output.length < found.flatten.length := by
  unfold Room at hroom
  rw [not_or, not_le, not_le] at hroom
  obtain ⟨hten, hmany⟩ := hroom
  obtain ⟨k, hk⟩ : ∃ k, k + size = found.flatten.length := ⟨_, Nat.sub_add_cancel (by omega)⟩
  obtain ⟨first, s, hfirst, hidle, hb, hnone, hout⟩ := pass_lines hsize found k size hk
  rw [← Nat.zero_add size] at hidle
  obtain ⟨fill, t, hfill, hidle, hb, hfull, hsame⟩ := fill_lines hsize size hidle hb (by omega)
  obtain ⟨hmutex, hempty, hlen⟩ := hidle.semaphores hb
  have hall : t.workers.all Producer.finished = true := by
    rw [List.all_eq_true]
    intro p hp
    have hzero := List.sum_eq_zero_iff.mp hidle.left p.lines.length (List.mem_map.mpr ⟨p, hp, rfl⟩)
    simp [Producer.finished, hidle.workers p hp, List.length_eq_zero_iff.mp hzero]
  have hclose := run_closing hall (hidle.closing ▸
    produceTimes_section size exitchild [] hmutex (by omega) (hb.put_room hsize))
  -- the string that stops `Printer` is in the slot of the oldest line
  have hslot : (t.shared.putOne size exitchild).buffer[
      (t.shared.putOne size exitchild).curGet]? = some (some exitchild) := by
    have hindex : t.shared.curGet = t.shared.curPut := by
      rw [hb.get_at, hb.put_at, hlen, hfull, hnone, Nat.zero_add, Nat.add_mod_right]
    simp only [Shared.putOne, hindex]
    exact List.getElem?_set_self (hb.put_room hsize)
  obtain ⟨u, hlast, hstop, hkept⟩ := printer_stops size (s := { t with
    shared := t.shared.putOne size exitchild, closing := ⟨.waitEmpty, []⟩ })
    hidle.printer hmutex (by simp [Shared.putOne]) hslot
  refine ⟨first ++ (fill ++ (List.replicate 5 .closing ++ List.replicate 6 .printer)), u,
    ?_, hstop, ?_⟩
  · rw [run_append, hfirst, Option.bind_some, run_append, hfill, Option.bind_some, run_append,
      hclose]
    exact hlast
  · rw [hkept, hsame, hout]
    omega

/-- Every line comes through under every schedule exactly when the buffer has
ten slots, or one for every line and for the string that stops `Printer`. -/
theorem transparent_iff_room (size : Nat) (hsize : 1 ≤ size)
    (found : List (List MatchingLine)) :
    Transparent size found ↔ 10 ≤ size ∨ found.flatten.length + 1 ≤ size := by
  constructor
  · intro h
    by_contra hroom
    obtain ⟨schedule, t, hrun, hstop, hless⟩ := lines_lost hsize hroom
    have hperm := ((h schedule t hrun).2 hstop).2.1
    have hlen := hperm.length_eq
    rw [List.length_map] at hlen
    omega
  · exact transparent_of_room hsize

/-- Two slots are enough for one line. -/
theorem transparent_iff_room_two : 1 ≤ 2 ∧ Transparent 2 [[⟨text "f", 1, text "is"⟩]] := by
  refine ⟨by omega, ?_⟩
  rw [transparent_iff_room 2 (by omega)]
  exact .inr (by decide)

/-- One slot, as in `run_t2_4`, and one line: `exitchild` is put over the line
before `Printer` has taken it out, and the line is never written. -/
theorem one_slot_loses_line : ¬ Transparent 1 [[⟨text "f", 1, text "is"⟩]] := by
  intro h
  have hrun : (run (step 1) (start 1 [[⟨text "f", 1, text "is"⟩]])
      (List.replicate 5 (.worker 0) ++ List.replicate 5 .closing ++
        List.replicate 6 .printer)).map (fun s => (s.printer, s.output)) =
      some (.stopped, []) := by decide
  obtain ⟨s, hs, hend⟩ := Option.map_eq_some_iff.mp hrun
  simp only [Prod.mk.injEq] at hend
  have hlines := ((h _ s hs).2 hend.1).2.1.length_eq
  rw [hend.2] at hlines
  cases hlines

end Cse420.Server.Ring
