import Cse420.Server.Ring

/-!
When the bounded buffer of `server-rev1.c` passes every line on. `Printer`
reads a slot that was written again as soon as more strings are put than the
buffer has slots, and ten may be put before one is taken out. So the lines come
through under every schedule exactly when the buffer has ten slots, or one for
every string there is.
-/

namespace Cse420.Server.Ring

open CMemory Machine RingBuffer

theorem colon_not_mem_exitchild : ':'.toUInt8 ∉ exitchild := by decide

/-- A line that is found is never taken for the string that stops `Printer`. -/
theorem MatchingLine.line_ne_exitchild (m : MatchingLine) : m.line ≠ exitchild := by
  intro heq
  apply colon_not_mem_exitchild
  rw [← heq]
  simp [MatchingLine.line, text]

/-- What `Printer` has taken out of the buffer. -/
def fetched (output : List (List UInt8)) : PrinterPc → List (List UInt8)
  | .fileWriter str => output ++ [str]
  | .postMutex str | .postEmpty str => if str = exitchild then output ++ [exitchild] else output
  | .stopped => output ++ [exitchild]
  | _ => output

/-- The strings and where they are. Nothing is put behind `exitchild`, because
all workers have been joined before. -/
structure Faithful (found : List (List MatchingLine)) (s : State) (gets : Nat) : Prop where
  lines : (s.shared.putLog ++ (s.workers.flatMap Producer.lines ++ s.closing.lines)).Perm
    (found.flatten.map MatchingLine.line ++ [exitchild])
  clean : ∀ p ∈ s.workers, exitchild ∉ p.lines
  closing :
    (s.closing.lines = [exitchild] ∧ exitchild ∉ s.shared.putLog) ∨
    (s.closing.lines = [] ∧
      ∃ puts, s.shared.putLog = puts ++ [exitchild] ∧ exitchild ∉ puts)
  joined : s.closing ≠ ⟨.waitEmpty, [exitchild]⟩ → s.workers.all Producer.finished = true
  ready : ∀ p ∈ s.closing :: s.workers, p.took = true → p.lines ≠ []
  taken : s.shared.putLog.take gets = fetched s.output s.printer
  output : exitchild ∉ s.output

/-- There are never more strings in the buffer than slots. -/
def Room (size : Nat) (found : List (List MatchingLine)) : Prop :=
  10 ≤ size ∨ found.flatten.length + 1 ≤ size

instance (size : Nat) (found : List (List MatchingLine)) : Decidable (Room size found) :=
  inferInstanceAs (Decidable (_ ∨ _))

theorem faithful_start (size : Nat) (found : List (List MatchingLine)) :
    Faithful found (start size found) 0 := by
  constructor
  · apply List.Perm.of_eq
    simp [start, List.map_flatten, List.flatMap_def, Function.comp_def]
  · intro p hp hmem
    obtain ⟨lines, -, rfl⟩ := List.mem_map.mp hp
    obtain ⟨m, -, hm⟩ := List.mem_map.mp hmem
    exact m.line_ne_exitchild hm
  · left
    simp [start]
  · intro hne
    exact absurd rfl hne
  · intro p hp htook
    rcases List.mem_cons.mp hp with rfl | hp
    · cases htook
    · obtain ⟨lines, -, rfl⟩ := List.mem_map.mp hp
      cases htook
  · rfl
  · simp [start]

theorem finished_no_step {size : Nat} {sh : Shared} {p : Producer}
    (h : p.finished = true) : produce size sh p = none := by
  obtain ⟨pc, lines⟩ := p
  simp only [Producer.finished, Bool.and_eq_true, decide_eq_true_eq,
    List.isEmpty_iff] at h
  obtain ⟨rfl, rfl⟩ := h
  rfl

/-- A producer that waits for the mutex or is about to put has something to put. -/
theorem produce_ready {size : Nat} {sh after : Shared} {p next : Producer}
    (hp : produce size sh p = some (after, next)) (hready : p.took = true → p.lines ≠ []) :
    next.took = true → next.lines ≠ [] := by
  obtain ⟨pc, lines⟩ := p
  cases pc with
  | waitEmpty =>
      cases lines with
      | nil => cases hp
      | cons line rest =>
          simp only [produce, Option.ite_none_right_eq_some, Option.some.injEq,
            Prod.mk.injEq] at hp
          obtain ⟨-, -, rfl⟩ := hp
          simp
  | waitMutex =>
      simp only [produce, Option.ite_none_right_eq_some, Option.some.injEq,
        Prod.mk.injEq] at hp
      obtain ⟨-, -, rfl⟩ := hp
      intro _
      exact hready rfl
  | put =>
      cases lines with
      | nil => cases hp
      | cons line rest =>
          obtain ⟨sh', -, hnext⟩ := Option.map_eq_some_iff.mp hp
          cases hnext
          simp [Producer.took]
  | postMutex =>
      cases hp
      simp [Producer.took]
  | postFull =>
      cases hp
      simp [Producer.took]

theorem Balanced.gets_le {size : Nat} {s : State} {gets : Nat} (h : Balanced size s gets) :
    gets ≤ s.shared.putLog.length := by
  have := h.puts
  omega

/-- What is put later does not change what was taken. -/
theorem take_put {size : Nat} {s : State} {gets : Nat} (h : Balanced size s gets)
    {after : Shared} {p next : Producer} (hp : Produced size s.shared after p next) :
    after.putLog.take gets = s.shared.putLog.take gets := by
  rcases hp.ring with ⟨hlog, -⟩ | ⟨line, -, hlog, -⟩
  · rw [hlog]
  · rw [hlog]
    exact List.take_append_of_le_length h.gets_le

theorem faithful_worker {size : Nat} {found : List (List MatchingLine)} {s t : State}
    {gets i : Nat} (hb : Balanced size s gets) (h : Faithful found s gets)
    (hstep : step size s (.worker i) = some t) : Faithful found t gets := by
  obtain ⟨p, shared, next, hi, hp, rfl⟩ := worker_cases hstep
  have hmem : p ∈ s.workers := List.mem_of_getElem? hi
  have hspec := produce_spec hp
  have hunfinished : s.workers.all Producer.finished ≠ true := by
    intro hall
    rw [finished_no_step (List.all_eq_true.mp hall p hmem)] at hp
    cases hp
  have hopen : s.closing = ⟨.waitEmpty, [exitchild]⟩ := by
    by_contra hne
    exact hunfinished (h.joined hne)
  have hexit : exitchild ∉ s.shared.putLog := by
    rcases h.closing with ⟨-, hnot⟩ | ⟨hnil, -⟩
    · exact hnot
    · rw [hopen] at hnil
      cases hnil
  have hsub : ∀ line ∈ next.lines, line ∈ p.lines := by
    rcases hspec.ring with ⟨-, -, -, hlines⟩ | ⟨line, hlines, -⟩
    · rw [hlines]
      exact fun _ hl => hl
    · rw [hlines]
      exact fun _ hl => List.mem_cons_of_mem _ hl
  constructor
  · rcases hspec.ring with ⟨hlog, -, -, hlines⟩ | ⟨line, hlines, hlog, -⟩
    · have hsame : (s.workers.set i next).flatMap Producer.lines =
          s.workers.flatMap Producer.lines := by
        rw [List.flatMap_def, List.flatMap_def, map_set_same hi Producer.lines hlines]
      show (shared.putLog ++ _).Perm _
      rw [hlog, hsame]
      exact h.lines
    · have hmoved := flatMap_set_perm hi Producer.lines hlines
      have hall := (hmoved.append_right s.closing.lines).append_left s.shared.putLog
      show (shared.putLog ++ _).Perm _
      rw [hlog]
      apply List.Perm.trans _ (hall.symm.trans h.lines)
      simp
  · intro q hq
    rcases List.mem_or_eq_of_mem_set hq with hq | rfl
    · exact h.clean q hq
    · intro hbad
      exact h.clean p hmem (hsub _ hbad)
  · left
    refine ⟨by rw [hopen], ?_⟩
    rcases hspec.ring with ⟨hlog, -⟩ | ⟨line, hlines, hlog, -⟩
    · show exitchild ∉ shared.putLog
      rw [hlog]
      exact hexit
    · show exitchild ∉ shared.putLog
      rw [hlog]
      intro hbad
      rcases List.mem_append.mp hbad with hbad | hbad
      · exact hexit hbad
      · apply h.clean p hmem
        rw [hlines, List.mem_singleton.mp hbad]
        exact List.mem_cons_self
  · intro hne
    exact absurd hopen hne
  · intro q hq
    rcases List.mem_cons.mp hq with rfl | hq
    · exact h.ready _ List.mem_cons_self
    · rcases List.mem_or_eq_of_mem_set hq with hq | rfl
      · exact h.ready q (List.mem_cons_of_mem _ hq)
      · exact produce_ready hp (h.ready p (List.mem_cons_of_mem _ hmem))
  · show shared.putLog.take gets = _
    rw [take_put hb hspec]
    exact h.taken
  · exact h.output

theorem faithful_closing {size : Nat} {found : List (List MatchingLine)} {s t : State}
    {gets : Nat} (hb : Balanced size s gets) (h : Faithful found s gets)
    (hstep : step size s .closing = some t) : Faithful found t gets := by
  obtain ⟨shared, next, hall, hp, rfl⟩ := closing_cases hstep
  have hspec := produce_spec hp
  constructor
  · show (shared.putLog ++ (_ ++ next.lines)).Perm _
    rcases hspec.ring with ⟨hlog, -, -, hlines⟩ | ⟨line, hlines, hlog, -⟩
    · rw [hlog, hlines]
      exact h.lines
    · apply List.Perm.trans _ h.lines
      rw [hlog, hlines]
      simp only [List.append_assoc, List.singleton_append]
      exact (List.perm_middle.symm).append_left _
  · exact h.clean
  · show (next.lines = _ ∧ _ ∉ shared.putLog) ∨ (next.lines = [] ∧ ∃ _, shared.putLog = _ ∧ _)
    rcases hspec.ring with ⟨hlog, -, -, hlines⟩ | ⟨line, hlines, hlog, -⟩
    · rw [hlog, hlines]
      exact h.closing
    · right
      rcases h.closing with ⟨hone, hnot⟩ | ⟨hnil, -⟩
      · rw [hlines] at hone
        simp only [List.cons.injEq] at hone
        obtain ⟨rfl, hlast⟩ := hone
        exact ⟨hlast, s.shared.putLog, hlog, hnot⟩
      · rw [hnil] at hlines
        cases hlines
  · intro _
    exact hall
  · intro q hq
    rcases List.mem_cons.mp hq with rfl | hq
    · exact produce_ready hp (h.ready _ List.mem_cons_self)
    · exact h.ready q (List.mem_cons_of_mem _ hq)
  · show shared.putLog.take gets = _
    rw [take_put hb hspec]
    exact h.taken
  · exact h.output

theorem putLog_length_le {found : List (List MatchingLine)} {s : State} {gets : Nat}
    (h : Faithful found s gets) : s.shared.putLog.length ≤ found.flatten.length + 1 := by
  have hlen := h.lines.length_eq
  simp only [List.length_append, List.length_map, List.length_singleton] at hlen
  omega

/-- With room for everything that can be in the buffer, `getitem` returns the
oldest string that was not taken yet. -/
theorem getitem_oldest {size : Nat} {found : List (List MatchingLine)} {s : State}
    {gets : Nat} (hb : Balanced size s gets) (h : Faithful found s gets)
    (hroom : Room size found) (hpc : s.printer = .getitem) :
    ∃ str, s.shared.putLog[gets]? = some str ∧
      getitem size s.shared =
        some (str, { s.shared with curGet := advance size s.shared.curGet }) := by
  have hputs := hb.puts
  have hslots := hb.slots
  have hlen := putLog_length_le h
  rw [hpc] at hputs hslots
  simp only [PrinterPc.took, PrinterPc.busy, Bool.toNat_true] at hputs hslots
  obtain ⟨str, hstr⟩ : ∃ str, s.shared.putLog[gets]? = some str :=
    ⟨_, List.getElem?_eq_getElem (by omega)⟩
  refine ⟨str, hstr, ?_⟩
  have hslot : s.shared.buffer[gets % size]? = some (some str) := by
    apply hb.recent.2 gets str hstr
    rcases hroom with hten | hall
    · omega
    · omega
  unfold getitem
  rw [hb.get_at, hslot]
  rfl

theorem faithful_printer {size : Nat} {found : List (List MatchingLine)} {s t : State}
    {gets : Nat} (hb : Balanced size s gets) (h : Faithful found s gets)
    (hroom : Room size found) (hstep : step size s .printer = some t) :
    Faithful found t (gets + s.printer.gets) := by
  obtain ⟨shared, printer, output, hc, rfl⟩ := printer_cases hstep
  have hspec := consume_spec hc
  have htaken := h.taken
  have hlog : shared.putLog = s.shared.putLog := hspec.putLog
  -- only what was taken and what was written changes
  suffices hout : s.shared.putLog.take (gets + s.printer.gets) = fetched output printer ∧
      exitchild ∉ output by
    constructor
    · show (shared.putLog ++ _).Perm _
      rw [hlog]
      exact h.lines
    · exact h.clean
    · show (_ ∧ _ ∉ shared.putLog) ∨ (_ ∧ ∃ _, shared.putLog = _ ∧ _)
      rw [hlog]
      exact h.closing
    · exact h.joined
    · exact h.ready
    · show shared.putLog.take _ = _
      rw [hlog]
      exact hout.1
    · exact hout.2
  cases hpc : s.printer with
  | waitFull =>
      simp only [hpc, consume, Option.ite_none_right_eq_some, Option.some.injEq,
        Prod.mk.injEq] at hc
      obtain ⟨-, -, rfl, rfl⟩ := hc
      rw [hpc] at htaken
      exact ⟨htaken, h.output⟩
  | waitMutex =>
      simp only [hpc, consume, Option.ite_none_right_eq_some, Option.some.injEq,
        Prod.mk.injEq] at hc
      obtain ⟨-, -, rfl, rfl⟩ := hc
      rw [hpc] at htaken
      exact ⟨htaken, h.output⟩
  | getitem =>
      obtain ⟨str, hstr, hget⟩ := getitem_oldest hb h hroom hpc
      simp only [hpc, consume, hget, Option.map_some, Option.some.injEq, Prod.mk.injEq] at hc
      obtain ⟨-, rfl, rfl⟩ := hc
      rw [hpc] at htaken
      refine ⟨?_, h.output⟩
      simp only [PrinterPc.gets, List.take_add_one, hstr, htaken]
      rfl
  | fileWriter str =>
      simp only [hpc, consume, Option.some.injEq, Prod.mk.injEq] at hc
      obtain ⟨-, rfl, rfl⟩ := hc
      rw [hpc] at htaken
      by_cases hexit : str = exitchild
      · simp only [hexit, fetched] at htaken
        simp [hexit, fetched, PrinterPc.gets, htaken, h.output]
      · have := h.output
        simp only [fetched] at htaken
        simp [hexit, fetched, PrinterPc.gets, htaken, this, Ne.symm hexit]
  | postMutex str =>
      simp only [hpc, consume, Option.some.injEq, Prod.mk.injEq] at hc
      obtain ⟨-, rfl, rfl⟩ := hc
      rw [hpc] at htaken
      exact ⟨htaken, h.output⟩
  | postEmpty str =>
      simp only [hpc, consume, Option.some.injEq, Prod.mk.injEq] at hc
      obtain ⟨-, rfl, rfl⟩ := hc
      rw [hpc] at htaken
      refine ⟨?_, h.output⟩
      by_cases hexit : str = exitchild
      · simp only [hexit, fetched, if_true] at htaken
        simpa [hexit, PrinterPc.gets, fetched] using htaken
      · simp only [hexit, fetched, if_false] at htaken
        simpa [hexit, PrinterPc.gets, fetched] using htaken
  | stopped =>
      rw [hpc] at hc
      cases hc

/-- The invariant of all schedules with enough room. -/
def Sound (size : Nat) (found : List (List MatchingLine)) (s : State) : Prop :=
  ∃ gets, Balanced size s gets ∧ Faithful found s gets

theorem sound_step {size : Nat} (hsize : 0 < size) {found : List (List MatchingLine)}
    (hroom : Room size found) {s t : State} {event : Event} (h : Sound size found s)
    (hstep : step size s event = some t) : Sound size found t := by
  obtain ⟨gets, hb, hf⟩ := h
  cases event with
  | worker i =>
      have hfaithful := faithful_worker hb hf hstep
      obtain ⟨p, shared, next, hi, hp, rfl⟩ := worker_cases hstep
      exact ⟨gets, balanced_produce hsize hb (produce_spec hp) rfl (count_worker s shared hi),
        hfaithful⟩
  | closing =>
      have hfaithful := faithful_closing hb hf hstep
      obtain ⟨shared, next, -, hp, rfl⟩ := closing_cases hstep
      exact ⟨gets, balanced_produce hsize hb (produce_spec hp) rfl (count_closing s shared next),
        hfaithful⟩
  | printer =>
      have hfaithful := faithful_printer hb hf hroom hstep
      obtain ⟨shared, printer, output, hc, rfl⟩ := printer_cases hstep
      exact ⟨_, balanced_consume hsize hb (consume_spec hc) rfl rfl, hfaithful⟩

/-- The end of `Printer`: everything was put, taken out and written. -/
theorem sound_stopped {size : Nat} {found : List (List MatchingLine)} {s : State}
    (h : Sound size found s) (hstop : s.printer = .stopped) :
    s.shared.putLog = s.output ++ [exitchild] ∧
      s.output.Perm (found.flatten.map MatchingLine.line) ∧ s.shared.full = 0 := by
  obtain ⟨gets, hb, hf⟩ := h
  have htaken := hf.taken
  rw [hstop] at htaken
  simp only [fetched] at htaken
  have hexit : exitchild ∈ s.shared.putLog := by
    apply List.mem_of_mem_take
    rw [htaken]
    simp
  rcases hf.closing with ⟨-, hnot⟩ | ⟨hclosed, puts, hlog, hnot⟩
  · exact absurd hexit hnot
  · -- the mark is the last string of the log, so all of the log was taken
    have hall : gets = s.shared.putLog.length := by
      by_contra hne
      have hlt : gets ≤ puts.length := by
        have := hb.gets_le
        rw [hlog, List.length_append, List.length_singleton] at this hne
        omega
      apply hnot
      apply List.mem_of_mem_take (i := gets)
      rw [hlog, List.take_append_of_le_length hlt] at htaken
      rw [htaken]
      simp
    have hlog' : s.shared.putLog = s.output ++ [exitchild] := by
      rw [← htaken, hall, List.take_length]
    refine ⟨hlog', ?_, ?_⟩
    · have hdone := hf.joined (by rw [ne_eq]; intro heq; rw [heq] at hclosed; cases hclosed)
      have hempty : s.workers.flatMap Producer.lines = [] := by
        rw [List.flatMap_eq_nil_iff]
        intro p hp
        have hfin := List.all_eq_true.mp hdone p hp
        simp only [Producer.finished, Bool.and_eq_true, List.isEmpty_iff] at hfin
        exact hfin.2
      have hlines := hf.lines
      rw [hempty, hclosed, hlog', List.nil_append, List.append_nil] at hlines
      exact (List.perm_append_right_iff _).mp hlines
    · have := hb.puts
      omega

/-- Where a producer has no step. -/
theorem produce_none {size : Nat} {sh : Shared} {p : Producer}
    (h : produce size sh p = none) (hready : p.took = true → p.lines ≠ [])
    (hput : sh.curPut < sh.buffer.length) :
    (p.pc = .waitEmpty ∧ (p.lines = [] ∨ sh.empty = 0)) ∨ (p.pc = .waitMutex ∧ sh.mutex = 0) := by
  obtain ⟨pc, lines⟩ := p
  cases pc with
  | waitEmpty =>
      left
      refine ⟨rfl, ?_⟩
      cases lines with
      | nil => exact .inl rfl
      | cons line rest =>
          right
          simpa [produce] using h
  | waitMutex =>
      right
      refine ⟨rfl, ?_⟩
      simpa [produce] using h
  | put =>
      cases lines with
      | nil => exact absurd rfl (hready rfl)
      | cons line rest => simp [produce, put, hput] at h
  | postMutex => cases h
  | postFull => cases h

/-- Where `Printer` has no step. -/
theorem consume_none {size : Nat} {found : List (List MatchingLine)} {s : State} {gets : Nat}
    (hb : Balanced size s gets) (hf : Faithful found s gets) (hroom : Room size found)
    (h : consume size s.shared s.output s.printer = none) (hrunning : s.printer ≠ .stopped) :
    (s.printer = .waitFull ∧ s.shared.full = 0) ∨
      (s.printer = .waitMutex ∧ s.shared.mutex = 0) := by
  cases hpc : s.printer with
  | waitFull =>
      rw [hpc] at h
      left
      exact ⟨rfl, by simpa [consume] using h⟩
  | waitMutex =>
      rw [hpc] at h
      right
      exact ⟨rfl, by simpa [consume] using h⟩
  | getitem =>
      obtain ⟨str, -, hget⟩ := getitem_oldest hb hf hroom hpc
      simp [hpc, consume, hget] at h
  | fileWriter str => simp [hpc, consume] at h
  | postMutex str => simp [hpc, consume] at h
  | postEmpty str => simp [hpc, consume] at h
  | stopped => exact absurd hpc hrunning

/-- Where everybody is when nobody has a step. -/
structure Stuck (s : State) : Prop where
  worker : ∀ p ∈ s.workers,
    (p.pc = .waitEmpty ∧ (p.lines = [] ∨ s.shared.empty = 0)) ∨
      (p.pc = .waitMutex ∧ s.shared.mutex = 0)
  closing : (s.closing.pc = .waitEmpty ∧ (s.closing.lines = [] ∨ s.shared.empty = 0 ∨
      s.workers.all Producer.finished = false)) ∨
    (s.closing.pc = .waitMutex ∧ s.shared.mutex = 0)
  printer : (s.printer = .waitFull ∧ s.shared.full = 0) ∨
    (s.printer = .waitMutex ∧ s.shared.mutex = 0)

theorem stuck_of_none {size : Nat} (hsize : 0 < size) {found : List (List MatchingLine)}
    (hroom : Room size found) {s : State} {gets : Nat} (hb : Balanced size s gets)
    (hf : Faithful found s gets) (hrunning : s.printer ≠ .stopped)
    (hstuck : ∀ event, step size s event = none) : Stuck s := by
  have hput : s.shared.curPut < s.shared.buffer.length := by
    rw [hb.put_at, hb.recent.1]
    exact Nat.mod_lt _ hsize
  constructor
  · intro p hp
    obtain ⟨i, hi⟩ := List.mem_iff_getElem?.mp hp
    have hnone := hstuck (.worker i)
    have hblocked : produce size s.shared p = none := by
      cases hout : produce size s.shared p with
      | none => rfl
      | some out => simp [step, hi, hout] at hnone
    exact produce_none hblocked (hf.ready p (List.mem_cons_of_mem _ hp)) hput
  · cases hall : s.workers.all Producer.finished with
    | false =>
        have hopen : s.closing = ⟨.waitEmpty, [exitchild]⟩ := by
          by_contra hne
          rw [hf.joined hne] at hall
          cases hall
        left
        simp [hopen]
    | true =>
        have hnone := hstuck .closing
        have hblocked : produce size s.shared s.closing = none := by
          cases hout : produce size s.shared s.closing with
          | none => rfl
          | some out => simp [step, hall, hout] at hnone
        rcases produce_none hblocked (hf.ready _ List.mem_cons_self) hput with
          ⟨hpc, hlines | hempty⟩ | hmutex
        · exact .inl ⟨hpc, .inl hlines⟩
        · exact .inl ⟨hpc, .inr (.inl hempty)⟩
        · exact .inr hmutex
  · apply consume_none hb hf hroom _ hrunning
    cases hout : consume size s.shared s.output s.printer with
    | none => rfl
    | some out =>
        have hnone := hstuck .printer
        simp [step, hout] at hnone

theorem Stuck.count_zero {s : State} (h : Stuck s) {q : Producer → Bool}
    (hempty : ∀ p : Producer, p.pc = .waitEmpty → q p = false)
    (hmutex : s.shared.mutex = 0 → ∀ p : Producer, p.pc = .waitMutex → q p = false) :
    s.count q = 0 := by
  have hnone : s.workers.countP q = 0 := by
    rw [List.countP_eq_zero]
    intro p hp
    rcases h.worker p hp with ⟨hpc, -⟩ | ⟨hpc, hzero⟩
    · simp [hempty p hpc]
    · simp [hmutex hzero p hpc]
  have hlast : q s.closing = false := by
    rcases h.closing with ⟨hpc, -⟩ | ⟨hpc, hzero⟩
    · exact hempty _ hpc
    · exact hmutex hzero _ hpc
  simp [State.count, hnone, hlast]

/-- Nobody is inside, so the mutex is free. -/
theorem Stuck.mutex_free {size : Nat} {s : State} {gets : Nat} (h : Stuck s)
    (hb : Balanced size s gets) : s.shared.mutex = 1 := by
  have hsum := hb.mutex
  have hholds : s.count Producer.holds = 0 := by
    apply h.count_zero
    · intro p hpc
      simp [Producer.holds, hpc]
    · intro _ p hpc
      simp [Producer.holds, hpc]
  have hfree : s.printer.holds = false := by
    rcases h.printer with ⟨hpc, -⟩ | ⟨hpc, -⟩ <;> simp [PrinterPc.holds, hpc]
  rw [hholds, hfree] at hsum
  simpa using hsum

/-- No schedule gets stuck before `Printer` has stopped. -/
theorem sound_enabled {size : Nat} (hsize : 0 < size) {found : List (List MatchingLine)}
    (hroom : Room size found) {s : State} (h : Sound size found s)
    (hrunning : s.printer ≠ .stopped) : ∃ event t, step size s event = some t := by
  obtain ⟨gets, hb, hf⟩ := h
  by_contra hnone
  simp only [not_exists, ← Option.eq_none_iff_forall_ne_some] at hnone
  have hstuck := stuck_of_none hsize hroom hb hf hrunning hnone
  have hmutex := hstuck.mutex_free hb
  have htook : s.count Producer.took = 0 :=
    hstuck.count_zero (fun p hpc => by simp [Producer.took, hpc]) (by omega)
  have hplaced : s.count Producer.placed = 0 :=
    hstuck.count_zero (fun p hpc => by simp [Producer.placed, hpc]) (by omega)
  obtain ⟨hwait, hfull⟩ : s.printer = .waitFull ∧ s.shared.full = 0 := by
    rcases hstuck.printer with hwait | ⟨-, hzero⟩
    · exact hwait
    · omega
  have hslots := hb.slots
  have hputs := hb.puts
  rw [htook, hplaced, hfull, hwait] at hslots
  rw [hplaced, hfull, hwait] at hputs
  simp only [PrinterPc.busy, PrinterPc.took, Bool.toNat_false] at hslots hputs
  -- all slots are free, so everything was put, and taken again
  have hfinished : s.workers.all Producer.finished = true := by
    rw [List.all_eq_true]
    intro p hp
    rcases hstuck.worker p hp with ⟨hpc, hlines | hempty⟩ | ⟨-, hzero⟩
    · simp [Producer.finished, hpc, hlines]
    · omega
    · omega
  have hclosed : s.closing.lines = [] := by
    rcases hstuck.closing with ⟨-, hlines | hempty | hall⟩ | ⟨-, hzero⟩
    · exact hlines
    · omega
    · rw [hfinished] at hall
      cases hall
    · omega
  rcases hf.closing with ⟨hone, -⟩ | ⟨-, puts, hlog, -⟩
  · rw [hclosed] at hone
    cases hone
  · apply hf.output
    have htaken := hf.taken
    rw [hwait, List.take_of_length_le (by omega), hlog] at htaken
    simp only [fetched] at htaken
    rw [← htaken]
    simp

/-- The steps still to be made for the strings a producer has, including the
six that `Printer` makes for each. -/
def Producer.weight (p : Producer) : Nat :=
  match p.pc with
  | .waitEmpty => 11 * p.lines.length
  | .waitMutex => 11 * p.lines.length - 1
  | .put => 11 * p.lines.length - 2
  | .postMutex => 11 * p.lines.length + 8
  | .postFull => 11 * p.lines.length + 7

def PrinterPc.weight : PrinterPc → Nat
  | .waitFull | .stopped => 0
  | .waitMutex => 5
  | .getitem => 4
  | .fileWriter _ => 3
  | .postMutex _ => 2
  | .postEmpty _ => 1

def distance (s : State) : Nat :=
  (s.workers.map Producer.weight).sum + s.closing.weight + 6 * s.shared.full + s.printer.weight

theorem produce_weight {size : Nat} {sh after : Shared} {p next : Producer}
    (hp : produce size sh p = some (after, next)) (hready : p.took = true → p.lines ≠ []) :
    next.weight + 6 * after.full + 1 = p.weight + 6 * sh.full := by
  obtain ⟨pc, lines⟩ := p
  cases pc with
  | waitEmpty =>
      cases lines with
      | nil => cases hp
      | cons line rest =>
          simp only [produce, Option.ite_none_right_eq_some, Option.some.injEq,
            Prod.mk.injEq] at hp
          obtain ⟨-, rfl, rfl⟩ := hp
          simp only [Producer.weight, List.length_cons]
          omega
  | waitMutex =>
      simp only [produce, Option.ite_none_right_eq_some, Option.some.injEq,
        Prod.mk.injEq] at hp
      obtain ⟨-, rfl, rfl⟩ := hp
      have := List.length_pos_of_ne_nil (hready rfl)
      simp only [Producer.weight] at this ⊢
      omega
  | put =>
      cases lines with
      | nil => cases hp
      | cons line rest =>
          obtain ⟨sh', hput, hnext⟩ := Option.map_eq_some_iff.mp hp
          cases hnext
          simp only [put, Option.ite_none_right_eq_some, Option.some.injEq] at hput
          obtain ⟨-, rfl⟩ := hput
          simp only [Producer.weight, List.length_cons]
          omega
  | postMutex =>
      cases hp
      simp only [Producer.weight]
      omega
  | postFull =>
      cases hp
      simp only [Producer.weight]
      omega

theorem consume_weight {size : Nat} {sh after : Shared} {pc next : PrinterPc}
    {output written : List (List UInt8)}
    (h : consume size sh output pc = some (after, next, written)) :
    next.weight + 6 * after.full + 1 = pc.weight + 6 * sh.full := by
  cases pc with
  | waitFull =>
      simp only [consume, Option.ite_none_right_eq_some, Option.some.injEq,
        Prod.mk.injEq] at h
      obtain ⟨hpos, rfl, rfl, rfl⟩ := h
      simp only [PrinterPc.weight]
      omega
  | waitMutex =>
      simp only [consume, Option.ite_none_right_eq_some, Option.some.injEq,
        Prod.mk.injEq] at h
      obtain ⟨-, rfl, rfl, rfl⟩ := h
      simp only [PrinterPc.weight]
      omega
  | getitem =>
      obtain ⟨⟨str, sh'⟩, hget, hnext⟩ := Option.map_eq_some_iff.mp h
      cases hnext
      obtain ⟨slot, -, hrest⟩ := Option.bind_eq_some_iff.mp hget
      obtain ⟨str', -, hafter⟩ := Option.bind_eq_some_iff.mp hrest
      cases hafter
      simp only [PrinterPc.weight]
      omega
  | fileWriter str =>
      cases h
      simp only [PrinterPc.weight]
      omega
  | postMutex str =>
      cases h
      simp only [PrinterPc.weight]
      omega
  | postEmpty str =>
      cases h
      by_cases hstr : str = exitchild <;> simp [PrinterPc.weight, hstr] <;> omega
  | stopped => cases h

theorem step_distance {size : Nat} {found : List (List MatchingLine)} {s t : State}
    {event : Event} (h : Sound size found s) (hstep : step size s event = some t) :
    distance t < distance s := by
  obtain ⟨gets, -, hf⟩ := h
  cases event with
  | worker i =>
      obtain ⟨p, shared, next, hi, hp, rfl⟩ := worker_cases hstep
      have hmem : p ∈ s.workers := List.mem_of_getElem? hi
      have hweight := produce_weight hp (hf.ready p (List.mem_cons_of_mem _ hmem))
      have hsum := sum_map_set_add hi next Producer.weight
      simp only [distance]
      omega
  | closing =>
      obtain ⟨shared, next, -, hp, rfl⟩ := closing_cases hstep
      have hweight := produce_weight hp (hf.ready _ List.mem_cons_self)
      simp only [distance]
      omega
  | printer =>
      obtain ⟨shared, printer, output, hc, rfl⟩ := printer_cases hstep
      have hweight := consume_weight hc
      simp only [distance]
      omega

theorem sound_reaches {size : Nat} (hsize : 0 < size) {found : List (List MatchingLine)}
    (hroom : Room size found) {s : State} (h : Sound size found s) :
    ∃ later t, run (step size) s later = some t ∧ t.printer = .stopped := by
  refine run_reaches (Sound size found) distance ?_ s h
  intro u hu hrunning
  obtain ⟨event, next, hnext⟩ := sound_enabled hsize hroom hu hrunning
  exact ⟨event, next, hnext, sound_step hsize hroom hu hnext, step_distance hu hnext⟩

theorem transparent_of_room {size : Nat} (hsize : 0 < size)
    {found : List (List MatchingLine)} (hroom : Room size found) :
    Transparent size found := by
  intro schedule s hrun
  have hsound : Sound size found s :=
    run_invariant (Sound size found) (fun _ _ _ hu hstep => sound_step hsize hroom hu hstep)
      ⟨0, balanced_start size found, faithful_start size found⟩ hrun
  exact ⟨sound_reaches hsize hroom hsound, sound_stopped hsound⟩

end Cse420.Server.Ring
