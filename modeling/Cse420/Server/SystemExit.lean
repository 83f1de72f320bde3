import Cse420.Server.SystemEnds

/-!
The system with an exit command in its queue. The requests that have a child in
`ChildsPlay` by then are served and no others, and the server and its children
come to their end.
-/

namespace Cse420.Server.System

open CMemory Lister Machine SysVSem Queue
open Output (dequeued)

variable {κ : Type} {host : Host κ} {fs : FileSystem} {s t : State κ} {i : Nat}

/-- A state of the system after a string that stops the server was appended. -/
structure Stopping (host : Host κ) (fs : FileSystem) (s : State κ) : Prop where
  whole : Whole host fs s
  stop : ∃ r ∈ s.added, Exit.Stops r

section Served

/-- The string is never taken out, so every test from now on finds it. -/
theorem Stopping.noExit (h : Stopping host fs s) : noExit s.server.shm = some false := by
  obtain ⟨k, pending, z, hq⟩ := h.whole.queued
  obtain ⟨r, hr, hstop⟩ := h.stop
  obtain ⟨q, hmem, hbad⟩ := hq.stop_pending hr hstop
  refine hq.noExit.trans ?_
  rw [decide_eq_false]
  exact fun hall => hall q hmem hbad

/-- What is served depends on the items of the children only. -/
theorem served_items (s : State κ) :
    s.served = ((s.stages.zip (s.processes.children.map Output.Child.curItem)).filter
      (·.1 = .childsPlay)).map Prod.snd := by
  simp [State.served, List.zip_map_right, List.filter_map, Function.comp_def]

theorem served_same (hstages : t.stages = s.stages)
    (hitems : t.processes.children.map Output.Child.curItem =
      s.processes.children.map Output.Child.curItem) : t.served = s.served := by
  rw [served_items, served_items, hstages, hitems]

/-- An entry that does not count becomes another one that does not. -/
theorem filter_set_of_not {τ : Type} {threads : List τ} {old next : τ} {p : τ → Bool}
    (hi : threads[i]? = some old) (hold : p old = false) (hnext : p next = false) :
    (threads.set i next).filter p = threads.filter p := by
  obtain ⟨front, back, hthreads, hset⟩ := set_split hi
  rw [hset, hthreads]
  simp [hold, hnext]

theorem served_dropped {c : Output.Child κ} (hstage : s.stages[i]? = some .childTest)
    (hi : s.processes.children[i]? = some c) :
    State.served { s with stages := s.stages.set i .dropped } = s.served := by
  have hzip : (s.stages.zip s.processes.children)[i]? = some (.childTest, c) :=
    List.getElem?_zip_eq_some.mpr ⟨hstage, hi⟩
  have hset : (s.stages.set i .dropped).zip s.processes.children =
      (s.stages.zip s.processes.children).set i (.dropped, c) := by
    simp only [List.zip_eq_zipWith, set_zipWith Prod.mk hi]
  simp only [State.served, hset]
  rw [filter_set_of_not hzip (by simp) (by simp)]

theorem served_forks (hlength : s.stages.length = s.processes.children.length) (item : Item)
    (semadj : κ → Int) (pc : Exit.MainPc) :
    (s.forks item .childTest semadj pc).served = s.served := by
  simp only [State.served, State.forks, List.zip_append hlength, List.zip_cons_cons,
    List.zip_nil_right, List.filter_append, List.map_append]
  simp

variable [DecidableEq κ]

/-- The steps of `main` when it is to stop. -/
theorem main_stops (h : Stopping host fs s) (hpc : s.pc ≠ .returned)
    (hwait : s.pc = .wait → s.anyEnded = true) :
    ∃ t, mainStep host zeroBlock s = some t ∧ Exit.MainPc.left t.pc < s.pc.left ∧
      t.served = s.served ∧ t.added = s.added := by
  have hno := h.noExit
  obtain ⟨k, pending, z, hq⟩ := h.whole.queued
  have hplace : Exit.Placed (front s).curItem pending s.pc := hq.place
  cases hat : s.pc with
  | loopTest =>
      refine ⟨{ s with pc := .forkTest }, ?_, by simp [Exit.MainPc.left], rfl, rfl⟩
      simp [mainStep, hat, State.test, State.checked, hno]
  | count =>
      have hcount : charcount s.server.shm = some (1 + pending.length) := by
        rw [show s.server.shm = _ from hq.shm]
        exact charcount_image k pending z hq.clean
      refine ⟨{ s with pc := if 1 < 1 + pending.length then .retest else .loopTest }, ?_, ?_, rfl,
        rfl⟩
      · simp [mainStep, hat, State.checked, hcount]
      · show Exit.MainPc.left (if _ then _ else _) < _
        split <;> decide
  | retest =>
      refine ⟨{ s with pc := .forkTest }, ?_, by simp [Exit.MainPc.left], rfl, rfl⟩
      simp [mainStep, hat, State.test, State.checked, hno]
  | dequeue =>
      obtain ⟨item, server, hdequeue, -, -, -⟩ := h.whole.dequeueItem hat
      have hblock : List.length zeroBlock = 1024 := zeroBlock_length
      refine ⟨{ s with
        server
        pc := .forkTest
        processes := { s.processes with curItem := some item } }.semIni
          (host.SEMfr item.dirpath) 1, ?_, ?_, ?_, rfl⟩
      · simp only [mainStep, hat, hblock, if_true, hdequeue, State.checked]
      · simp [State.semIni, Exit.MainPc.left]
      · apply served_same
        · rfl
        · simp [State.semIni, Output.semIni, Function.comp_def]
  | forkTest =>
      refine ⟨{ s with pc := .childTest }, ?_, by simp [Exit.MainPc.left], rfl, rfl⟩
      simp [mainStep, hat, State.test, State.checked, hno]
  | fork =>
      rw [hat] at hplace
      have hsome : s.processes.curItem.isSome = true := by
        simpa [front, Exit.Placed] using hplace
      obtain ⟨item, hcur⟩ := Option.isSome_iff_exists.mp hsome
      refine ⟨s.forks item .childTest (fun _ => 0) .parentTest, ?_, ?_,
        served_forks h.whole.length .., rfl⟩
      · simp [mainStep, hat, State.checked, hcur]
      · simp [State.forks, Exit.MainPc.left]
  | childTest =>
      refine ⟨s.returns, ?_, by simp [State.returns, Exit.MainPc.left], rfl, rfl⟩
      simp [mainStep, hat, State.checked, hno]
  | parentTest =>
      refine ⟨{ s with pc := .wait }, ?_, by simp [Exit.MainPc.left], rfl, rfl⟩
      simp [mainStep, hat, State.test, State.checked, hno]
  | wait =>
      refine ⟨s.returns, ?_, by simp [State.returns, Exit.MainPc.left], rfl, rfl⟩
      simp [mainStep, hat, hwait hat]
  | returned => exact absurd hat hpc
  | exited =>
      rw [hat] at hplace
      exact hplace.elim

omit [DecidableEq κ] in
/-- What a child or a thread does in `ChildsPlay` changes no item. -/
theorem served_moved {q : Output.State κ} {c next : Output.Child κ}
    (hmoved : Moved host.SEMrq s.processes q i c next) :
    State.served { s with processes := q } = s.served := by
  apply served_same
  · rfl
  · simp only [hmoved.children, map_set_same hmoved.child Output.Child.curItem hmoved.item]

/-- A step after the command: it stays in the queue and no request more is served. -/
theorem stopping_step {event : Event} (hfresh : event.Fresh) (h : Stopping host fs s)
    (hstep : step host fs s event = some t) : Stopping host fs t ∧ t.served = s.served := by
  have hwhole := whole_step hfresh h.whole hstep
  have hkeeps (hserved : t.served = s.served) (hadded : s.added <+: t.added) :
      Stopping host fs t ∧ t.served = s.served := by
    obtain ⟨r, hr, hstop⟩ := h.stop
    exact ⟨⟨hwhole, r, hadded.subset hr, hstop⟩, hserved⟩
  simp only [step, h.whole.live.1.safe, Bool.false_eq_true, if_false] at hstep
  cases event with
  | client i event =>
      obtain ⟨c, hi, hclient⟩ := Option.bind_eq_some_iff.mp hstep
      rcases client_cases h.whole.sending hi hclient with ⟨after, -, -, rfl⟩ |
          ⟨pc, -, -, -, -, rfl⟩ | ⟨pc, r, -, -, hrest, -, hr, rfl⟩ | ⟨-, rfl⟩
      · exact hkeeps rfl (List.prefix_refl _)
      · exact hkeeps rfl (List.prefix_refl _)
      · have hroom := h.whole.room (List.mem_of_getElem? hi) (hrest ▸ List.mem_cons_self)
        obtain ⟨shm, hadd, -⟩ := h.whole.addReq hr hroom
        apply hkeeps
        · rw [hadd]
          rfl
        · rw [hadd]
          exact List.prefix_append _ _
      · exact hkeeps rfl (List.prefix_refl _)
  | main block =>
      rw [show block = zeroBlock from hfresh] at hstep
      have hpc : s.pc ≠ .returned := by
        intro hpc
        simp [mainStep, hpc] at hstep
      have hwait (hpc : s.pc = .wait) : s.anyEnded = true := by
        by_contra hnone
        simp [mainStep, hpc, hnone] at hstep
      obtain ⟨u, hmain, -, hserved, hadded⟩ := main_stops h hpc hwait
      have hsame : u = t := Option.some.inj (hmain.symm.trans hstep)
      rw [hsame] at hserved hadded
      apply hkeeps hserved
      rw [hadded]
  | child i event =>
      cases event with
      | test =>
          simp only [h.noExit, State.checked, Bool.false_eq_true, if_false,
            Option.ite_none_right_eq_some, Option.some.injEq] at hstep
          obtain ⟨hstage, rfl⟩ := hstep
          obtain ⟨c, hi⟩ := h.whole.child hstage
          exact hkeeps (served_dropped hstage hi) (List.prefix_refl _)
      | play event =>
          simp only [Option.ite_none_right_eq_some] at hstep
          obtain ⟨q, hplay, rfl⟩ := Option.map_eq_some_iff.mp hstep.2
          obtain ⟨c, next, hmoved, -⟩ := moved_play host.rq_fr hplay hwhole.live.1.safe
          exact hkeeps (served_moved hmoved) (List.prefix_refl _)
  | worker i j event =>
      simp only [Option.ite_none_right_eq_some] at hstep
      obtain ⟨q, hworker, rfl⟩ := Option.map_eq_some_iff.mp hstep.2
      obtain ⟨c, next, hmoved, -⟩ := moved_worker host.rq_buf hworker hwhole.live.1.safe
      exact hkeeps (served_moved hmoved) (List.prefix_refl _)

theorem stopping_run {later : List Event} (hfresh : ∀ event ∈ later, event.Fresh)
    (h : Stopping host fs s) (hrun : run (step host fs) s later = some t) :
    Stopping host fs t ∧ t.served = s.served := by
  apply run_invariant_by Event.Fresh (fun u => Stopping host fs u ∧ u.served = s.served) _ hfresh
    ⟨h, rfl⟩ hrun
  rintro u event next ⟨hu, hsame⟩ hevent hstep
  obtain ⟨hnext, hserved⟩ := stopping_step hevent hu hstep
  exact ⟨hnext, hserved.trans hsame⟩

end Served

section Ends

variable [DecidableEq κ]

/-- `main` is through with its loop. -/
def Parked (host : Host κ) (fs : FileSystem) (s : State κ) : Prop :=
  Stopping host fs s ∧ (s.pc = .wait ∨ s.pc = .returned)

/-- `main` leaves its loop. -/
theorem loop_progress (h : Stopping host fs s) (hnot : ¬ (s.pc = .wait ∨ s.pc = .returned)) :
    ∃ event next, Event.Fresh event ∧ step host fs s event = some next ∧ Stopping host fs next ∧
      Exit.MainPc.left next.pc < s.pc.left := by
  rw [not_or] at hnot
  have hwait (hpc : s.pc = .wait) : s.anyEnded = true := absurd hpc hnot.1
  obtain ⟨t, hmain, hless, -, -⟩ := main_stops h hnot.2 hwait
  have hfresh : (Event.main zeroBlock).Fresh := rfl
  have hstep : step host fs s (.main zeroBlock) = some t := by
    simp [step, h.whole.live.1.safe, hmain]
  exact ⟨_, t, hfresh, hstep, (stopping_step hfresh h hstep).1, hless⟩

/-- A child that has not made its test ends with it. -/
theorem drops_progress (h : Parked host fs s) (hnot : ¬ ∀ stage ∈ s.stages, stage ≠ .childTest) :
    ∃ event next, Event.Fresh event ∧ step host fs s event = some next ∧ Parked host fs next ∧
      next.stages.countP (· = .childTest) < s.stages.countP (· = .childTest) := by
  obtain ⟨hstopping, hpc⟩ := h
  simp only [not_forall, not_not] at hnot
  obtain ⟨stage, hmem, rfl⟩ := hnot
  obtain ⟨i, hi⟩ := List.getElem?_of_mem hmem
  have hfresh : (Event.child i .test).Fresh := trivial
  have hstep : step host fs s (.child i .test) =
      some { s with stages := s.stages.set i .dropped } := by
    simp [step, hstopping.whole.live.1.safe, hi, hstopping.noExit, State.checked]
  refine ⟨_, _, hfresh, hstep, ⟨(stopping_step hfresh hstopping hstep).1, hpc⟩, ?_⟩
  have hcount := countP_set_add hi .dropped (· = .childTest)
  simp only [decide_true, Bool.toNat_true, reduceCtorEq, decide_false, Bool.toNat_false] at hcount
  show (s.stages.set i .dropped).countP (· = .childTest) < _
  omega

/-- Every child has made its test. -/
def Tested (host : Host κ) (fs : FileSystem) (s : State κ) : Prop :=
  Parked host fs s ∧ ∀ stage ∈ s.stages, stage ≠ .childTest

omit [DecidableEq κ] in
/-- A child that has entered its directory is in `ChildsPlay`. -/
theorem Whole.entered (h : Whole host fs s) {k : Nat} (hi : s.stages[i]? = some .childsPlay)
    (hentered : k = i ∨ ∃ d, s.processes.children[k]? = some d ∧ d.pc ≠ .waits) :
    s.stages[k]? = some .childsPlay := by
  rcases hentered with rfl | ⟨d, hk, hpc⟩
  · exact hi
  · by_contra hnot
    exact hpc (h.waiting k d hnot hk)

/-- The children in `ChildsPlay` and their threads can go on; those that have
ended without it hold no semaphore. -/
theorem plays_progress (h : Tested host fs s) (hnot : ¬ Settled s) :
    ∃ event next, Event.Fresh event ∧ step host fs s event = some next ∧ Tested host fs next ∧
      Output.State.left fs next.processes < Output.State.left fs s.processes := by
  obtain ⟨⟨hstopping, hpc⟩, htested⟩ := h
  have hwhole := hstopping.whole
  simp only [Settled, not_forall, not_or] at hnot
  obtain ⟨⟨stage, c⟩, hx, hkept, hrunning⟩ := hnot
  obtain ⟨i, hi, hchild⟩ := zip_child hx
  have hstage : s.stages[i]? = some .childsPlay := by
    cases stage with
    | childTest => exact absurd rfl (htested _ (List.mem_of_getElem? hi))
    | childsPlay => exact hi
    | dropped => exact absurd rfl hkept
  obtain ⟨event, q, hentered, hstep, hless⟩ := Output.moves_of_child hwhole.small hwhole.live.1
    hwhole.live.2 hchild hrunning
  have hgo {system : Event} (hfresh : system.Fresh)
      (hsystem : step host fs s system = some { s with processes := q }) :
      ∃ event next, Event.Fresh event ∧ step host fs s event = some next ∧ Tested host fs next ∧
        Output.State.left fs next.processes < Output.State.left fs s.processes :=
    ⟨system, _, hfresh, hsystem, ⟨⟨(stopping_step hfresh hstopping hsystem).1, hpc⟩, htested⟩,
      hless⟩
  cases event with
  | dequeueItem => exact hentered.elim
  | fork => exact hentered.elim
  | child k event =>
      have hk := hwhole.entered hstage hentered
      have hfresh : (Event.child k (.play event)).Fresh := trivial
      apply hgo hfresh
      simp [step, hwhole.live.1.safe, hk, hstep]
  | worker k j event =>
      have hk := hwhole.entered hstage hentered
      have hfresh : (Event.worker k j event).Fresh := trivial
      apply hgo hfresh
      simp [step, hwhole.live.1.safe, hk, hstep]

omit [DecidableEq κ] in
/-- `wait(NULL)` returns, since there is a child. -/
theorem Whole.waited (h : Whole host fs s) (hpc : s.pc = .wait) (hsettled : Settled s) :
    s.anyEnded = true := by
  obtain ⟨k, pending, z, hq⟩ := h.queued
  have hne : s.stages.zip s.processes.children ≠ [] := by
    intro hnil
    apply hq.forked (.inr hpc)
    show List.zipWith frontChild s.stages s.processes.children = []
    rw [List.zipWith_eq_nil_iff]
    exact List.zip_eq_nil_iff.mp hnil
  obtain ⟨x, rest, hcons⟩ := List.exists_cons_of_ne_nil hne
  have hx : x ∈ s.stages.zip s.processes.children := by
    rw [hcons]
    exact List.mem_cons_self
  obtain ⟨hstage, hchild⟩ := List.of_mem_zip hx
  simp only [State.anyEnded, Bool.or_eq_true, List.any_eq_true, decide_eq_true_eq]
  rcases hsettled x hx with hdropped | hexited
  · exact .inl ⟨x.1, hstage, hdropped⟩
  · exact .inr ⟨x.2, hchild, hexited⟩

/-- From every state with the command in the queue the server and its children
can come to their end. -/
theorem stopping_ends (h : Stopping host fs s) :
    ∃ later t, (∀ event ∈ later, Event.Fresh event) ∧ run (step host fs) s later = some t ∧
      t.pc = .returned ∧ Settled t := by
  obtain ⟨first, s₁, hfirst, hrun₁, hstopping, hpc⟩ := run_reaches_by Event.Fresh
    (Stopping host fs) (fun s => s.pc.left) (fun _ hs hnot => loop_progress hs hnot) s h
  obtain ⟨second, s₂, hsecond, hrun₂, hparked, htested⟩ := run_reaches_by Event.Fresh
    (Parked host fs) (fun s => s.stages.countP (· = .childTest))
    (fun _ hs hnot => drops_progress hs hnot) s₁ ⟨hstopping, hpc⟩
  obtain ⟨third, s₃, hthird, hrun₃, ⟨⟨hlast, hpc⟩, -⟩, hsettled⟩ := run_reaches_by Event.Fresh
    (Tested host fs) (fun s => Output.State.left fs s.processes)
    (fun _ hs hnot => plays_progress hs hnot) s₂ ⟨hparked, htested⟩
  have hrun : run (step host fs) s (first ++ (second ++ third)) = some s₃ := by
    rw [run_append, hrun₁, Option.bind_some, run_append, hrun₂, Option.bind_some, hrun₃]
  have hfresh : ∀ event ∈ first ++ (second ++ third), Event.Fresh event := by
    simp only [List.forall_mem_append]
    exact ⟨hfirst, hsecond, hthird⟩
  rcases hpc with hwait | hreturned
  · have hstep : step host fs s₃ (.main zeroBlock) = some s₃.returns := by
      simp [step, hlast.whole.live.1.safe, mainStep, hwait, hlast.whole.waited hwait hsettled]
    refine ⟨first ++ (second ++ third) ++ [.main zeroBlock], s₃.returns, ?_, ?_, rfl, hsettled⟩
    · rw [List.forall_mem_append, List.forall_mem_singleton]
      exact ⟨hfresh, rfl⟩
    · rw [run_append, hrun, Option.bind_some, run, hstep]
      rfl
  · exact ⟨_, s₃, hfresh, hrun, hreturned, hsettled⟩

/-- Clients of which one has asked the server to exit. Under every schedule the
requests that are served are those with a child in `ChildsPlay` at that moment:
whatever happens later, no other one is. The server can always return and its
children end, and then `output.txt` holds the results of these requests, whole
and in some order. -/
theorem exit_settles (host : Host κ) (fs : FileSystem) (calls : List (Args × Mem))
    (semval : κ → Nat) (hsetup : Setup host.malloc fs calls) (schedule : List Event)
    (hfresh : ∀ event ∈ schedule, event.Fresh) (s : State κ)
    (hrun : (start host calls semval).bind (run (step host fs) · schedule) = some s)
    (hstop : ∃ r ∈ s.added, Exit.Stops r) :
    (∃ later t, (∀ event ∈ later, Event.Fresh event) ∧ run (step host fs) s later = some t ∧
        t.pc = .returned ∧ Settled t) ∧
      ∀ later t, (∀ event ∈ later, Event.Fresh event) → run (step host fs) s later = some t →
        t.processes.overrun = false ∧ t.served = s.served ∧
          (Settled t → ∃ results : List (List UInt8),
            results.Perm (Output.expected fs s.served) ∧
              t.processes.output = results.flatten) := by
  obtain ⟨s₀, hstart, hrun⟩ := Option.bind_eq_some_iff.mp hrun
  have hstopping : Stopping host fs s :=
    ⟨(whole_run hfresh (whole_start hsetup hstart) hrun).1, hstop⟩
  refine ⟨stopping_ends hstopping, ?_⟩
  intro later t hlater hrun'
  obtain ⟨ht, hserved⟩ := stopping_run hlater hstopping hrun'
  refine ⟨ht.whole.live.1.safe, hserved, ?_⟩
  intro hsettled
  rw [← hserved]
  exact ht.whole.collects hsettled

/-- A client that asks the server to exit takes its turn. -/
theorem exit_turn {c : Client κ} (h : Whole host fs s) (hi : s.clients[i]? = some c)
    (hpc : c.pc = .waits) (hargs : c.args = .exit) (hfree : 0 < s.processes.semval host.SEMrq) :
    ∃ t, run (step host fs) s [.client i .waits, .client i .branch] = some t ∧
      exitReq ∈ t.added ∧ t.served = s.served := by
  have hlt := (List.getElem?_eq_some_iff.mp hi).1
  obtain ⟨after, hwaits⟩ : ∃ after,
      SysVSem.waits host.SEMrq s.processes.semval c.semadj = some after := by
    simp [SysVSem.waits, hfree]
  let inside : Client κ := { c with pc := .branch, semadj := after.2 }
  let s₁ := (s.setSemval after.1).setClient i inside
  have hfirst : step host fs s (.client i .waits) = some s₁ := by
    simp [step, h.live.1.safe, hi, clientStep, hpc, hwaits, s₁, inside]
  have hfresh : (Event.client i .waits).Fresh := trivial
  have hwhole := whole_step hfresh h hfirst
  have hinside : s₁.clients[i]? = some inside := by simp [s₁, State.setClient, State.setSemval, hlt]
  have hpath : inside.args.path = none := by simp [inside, hargs, Args.path]
  let s₂ := (s₁.addReq exitReq).setClient i { inside with pc := .signals }
  have hsecond : step host fs s₁ (.client i .branch) = some s₂ := by
    simp only [step, hwhole.live.1.safe, Bool.false_eq_true, if_false, hinside, Option.bind_eq_bind,
      Option.bind_some, clientStep, hpath]
    rfl
  have hrest : exitReq ∈ inside.rest fs := by
    simp [inside, Client.rest, Client.asks, Args.asks, hargs, Args.path]
  obtain ⟨shm, hadd, -⟩ :=
    hwhole.addReq (.inr rfl) (hwhole.room (List.mem_of_getElem? hinside) hrest)
  refine ⟨s₂, ?_, ?_, ?_⟩
  · rw [run, hfirst, Option.bind_some, run, hsecond]
    rfl
  · simp [s₂, hadd, State.setClient]
  · apply served_same
    · simp only [s₂, hadd]
      rfl
    · simp only [s₂, hadd]
      rfl

/-- A client with a request. -/
def fileCalls : List (Args × Mem) := [(.file (text "in"), zeroBlock)]

theorem setup_file : Setup chunks inputFile fileCalls where
  buffers := by simp [fileCalls, zeroBlock_length]
  files := by
    simp only [fileCalls, List.forall_mem_singleton]
    decide
  fits := ⟨by decide, ⟨by decide, by unfold Output.PathsFit; decide,
    by unfold Output.ResultsFit; decide⟩, by decide⟩

theorem calm_file : ∀ call ∈ fileCalls, ∀ r ∈ call.1.asks inputFile, ¬ Exit.Stops r := by
  simp only [fileCalls, List.forall_mem_singleton]
  decide

/-- A client with a request and one that asks the server to exit. -/
def exitCalls : List (Args × Mem) := [(.file (text "in"), zeroBlock), (.exit, zeroBlock)]

theorem setup_exit : Setup chunks inputFile exitCalls where
  buffers := by simp [exitCalls, zeroBlock_length]
  files := by
    simp only [exitCalls, List.forall_mem_cons]
    decide
  fits := ⟨by decide, ⟨by decide, by unfold Output.PathsFit; decide,
    by unfold Output.ResultsFit; decide⟩, by decide⟩

/-- One client more. -/
def State.withClient (s : State κ) (c : Client κ) : State κ :=
  { s with clients := s.clients ++ [c] }

omit [DecidableEq κ] in
theorem checked_withClient {α : Type} {c : Client κ} {done : Option α} {next next' : α → State κ}
    (h : ∀ a, next' a = (next a).withClient c) :
    (s.withClient c).checked done next' = (s.checked done next).withClient c := by
  cases done with
  | none => rfl
  | some a => exact h a

omit [DecidableEq κ] in
theorem setClient_withClient {c d : Client κ} (hlt : i < s.clients.length) :
    (s.withClient c).setClient i d = (s.setClient i d).withClient c := by
  simp only [State.setClient, State.withClient, List.set_append_left i d hlt]

omit [DecidableEq κ] in
theorem addReq_withClient (c : Client κ) (r : List UInt8) :
    (s.withClient c).addReq r = (s.addReq r).withClient c := checked_withClient fun _ => rfl

omit [DecidableEq κ] in
theorem semIni_withClient [DecidableEq κ] {c : Client κ} (hc : c.semadj = fun _ => 0) (semid : κ)
    (val : Nat) : (s.withClient c).semIni semid val = (s.semIni semid val).withClient c := by
  have hsame : { c with semadj := Function.update c.semadj semid 0 } = c := by
    have hzero : Function.update c.semadj semid 0 = c.semadj := by
      rw [Function.update_eq_self_iff, hc]
    rw [hzero]
  simp only [State.semIni, State.withClient, List.map_append, List.map_singleton, hsame]

theorem mainStep_withClient {c : Client κ} (hc : c.semadj = fun _ => 0) (block : Mem) :
    mainStep host block (s.withClient c) = (mainStep host block s).map (·.withClient c) := by
  have htest (stay leave : Exit.MainPc) :
      (s.withClient c).test stay leave = (s.test stay leave).withClient c :=
    checked_withClient fun _ => rfl
  have hsame : (s.withClient c).pc = s.pc := rfl
  cases hpc : s.pc with
  | loopTest => simp only [mainStep, hsame, hpc, htest, Option.map_some]
  | count =>
      simp only [mainStep, hsame, hpc, Option.map_some, Option.some.injEq]
      exact checked_withClient fun _ => rfl
  | retest => simp only [mainStep, hsame, hpc, htest, Option.map_some]
  | dequeue =>
      simp only [mainStep, hsame, hpc]
      split
      · rw [Option.map_some, Option.some.injEq]
        exact checked_withClient fun a => semIni_withClient (s := { s with
          server := a.2
          pc := .forkTest
          processes := { s.processes with curItem := some a.1 } }) hc _ _
      · rfl
  | forkTest => simp only [mainStep, hsame, hpc, htest, Option.map_some]
  | fork =>
      simp only [mainStep, hsame, hpc, Option.map_some, Option.some.injEq]
      exact checked_withClient fun _ => rfl
  | childTest =>
      simp only [mainStep, hsame, hpc, Option.map_some, Option.some.injEq]
      apply checked_withClient
      rintro (_ | _)
      · rfl
      · exact checked_withClient fun _ => rfl
  | parentTest => simp only [mainStep, hsame, hpc, htest, Option.map_some]
  | wait =>
      have hended : (s.withClient c).anyEnded = s.anyEnded := rfl
      simp only [mainStep, hsame, hpc, hended]
      split <;> rfl
  | returned => simp only [mainStep, hsame, hpc, Option.map_none]
  | exited => simp only [mainStep, hsame, hpc, Option.map_none]

theorem clientStep_withClient {c d : Client κ} {event : ClientEvent}
    (hlt : i < s.clients.length) :
    clientStep host fs (s.withClient c) i d event =
      (clientStep host fs s i d event).map (·.withClient c) := by
  have hset (semval : κ → Nat) (next : Client κ) :
      ((s.withClient c).setSemval semval).setClient i next =
        ((s.setSemval semval).setClient i next).withClient c :=
    setClient_withClient (s := s.setSemval semval) hlt
  have hadd (r : List UInt8) (next : Client κ) :
      ((s.withClient c).addReq r).setClient i next =
        ((s.addReq r).setClient i next).withClient c := by
    rw [addReq_withClient, setClient_withClient]
    rw [addReq_clients]
    exact hlt
  cases event with
  | waits =>
      simp only [clientStep]
      split
      · rw [Option.map_map]
        exact congrArg (Option.map · _) (funext fun after => hset after.1 _)
      · rfl
  | branch =>
      simp only [clientStep]
      split
      · split
        · rw [hadd, Option.map_some]
        · split
          · rw [setClient_withClient hlt, Option.map_some]
          · rw [setClient_withClient hlt, Option.map_some]
      · rfl
  | fgets =>
      simp only [clientStep]
      split
      · rw [setClient_withClient hlt, Option.map_some]
      · rw [Option.map_some, Option.some.injEq]
        exact checked_withClient fun _ => hadd _ _
      · rfl
  | signals =>
      simp only [clientStep]
      split
      · exact congrArg some (hset _ _)
      · rfl

/-- What the others do they can also do with one client more that waits for its
turn. -/
theorem step_withClient {c : Client κ} (hc : c.semadj = fun _ => 0) {event : Event}
    (hstep : step host fs s event = some t) :
    step host fs (s.withClient c) event = some (t.withClient c) := by
  have hsafe : s.processes.overrun = false := by
    by_contra hover
    simp [step, hover] at hstep
  have hsame : (s.withClient c).processes.overrun = false := hsafe
  simp only [step, hsafe, Bool.false_eq_true, if_false] at hstep
  simp only [step, hsame, Bool.false_eq_true, if_false]
  cases event with
  | client i event =>
      obtain ⟨d, hi, hclient⟩ := Option.bind_eq_some_iff.mp hstep
      have hlt := (List.getElem?_eq_some_iff.mp hi).1
      have hget : (s.withClient c).clients[i]? = some d := by
        rw [State.withClient, List.getElem?_append_left hlt, hi]
      simp only [hget, Option.bind_eq_bind, Option.bind_some, clientStep_withClient hlt, hclient,
        Option.map_some]
  | main block => simp only [mainStep_withClient hc, hstep, Option.map_some]
  | child i event =>
      cases event with
      | test =>
          simp only [Option.ite_none_right_eq_some, Option.some.injEq] at hstep ⊢
          obtain ⟨hstage, rfl⟩ := hstep
          exact ⟨hstage, checked_withClient fun _ => rfl⟩
      | play event =>
          simp only [Option.ite_none_right_eq_some] at hstep ⊢
          obtain ⟨q, hq, rfl⟩ := Option.map_eq_some_iff.mp hstep.2
          exact ⟨hstep.1, Option.map_eq_some_iff.mpr ⟨q, hq, rfl⟩⟩
  | worker i j event =>
      simp only [Option.ite_none_right_eq_some] at hstep ⊢
      obtain ⟨q, hq, rfl⟩ := Option.map_eq_some_iff.mp hstep.2
      exact ⟨hstep.1, Option.map_eq_some_iff.mpr ⟨q, hq, rfl⟩⟩

theorem run_withClient {c : Client κ} (hc : c.semadj = fun _ => 0) {later : List Event}
    (hrun : run (step host fs) s later = some t) :
    run (step host fs) (s.withClient c) later = some (t.withClient c) := by
  induction later generalizing s with
  | nil =>
      cases hrun
      rfl
  | cons event rest ih =>
      obtain ⟨u, hstep, hrest⟩ := run_cons hrun
      rw [run, step_withClient hc hstep]
      exact ih hrest

/-- A request has come to `ChildsPlay`, and then a client asks the server to exit. -/
theorem plays_then_exit :
    ∃ schedule s, (∀ event ∈ schedule, Event.Fresh event) ∧
      (start smallHost exitCalls fun _ => 0).bind (run (step smallHost inputFile) · schedule) =
        some s ∧ exitReq ∈ s.added ∧ s.served = [⟨text "/d", text "w"⟩] := by
  let c : Client Nat := ⟨.exit, zeroBlock, .waits, fun _ => 0⟩
  obtain ⟨s₀, hstart⟩ := start_isSome smallHost fileCalls fun _ => 0
  have hstart' : start smallHost exitCalls (fun _ => 0) = some (s₀.withClient c) := by
    obtain ⟨server, hserver, rfl⟩ := Option.map_eq_some_iff.mp hstart
    rw [start, hserver]
    rfl
  obtain ⟨first, s₁, hfirst, hrun₁, hpassed, hplay⟩ :=
    going_plays (going_start setup_file calm_file hstart)
  have hwhole := hpassed.1.1.1
  have hserved : s₁.served = [⟨text "/d", text "w"⟩] := by
    have hasks := (whole_run hfirst (whole_start setup_file hstart) hrun₁).2
    have hperm := hwhole.played_served hpassed.1.2 hpassed.2.1 hpassed.2.2
      fun x hx => hplay x.1 (List.of_mem_zip hx).1
    have hitems : items (fileCalls.flatMap fun call => call.1.asks inputFile) =
        [⟨text "/d", text "w"⟩] := by decide
    rw [hasks, start_asks hstart, hitems] at hperm
    exact List.perm_singleton.mp hperm.symm
  have hfree : 0 < s₁.processes.semval smallHost.SEMrq := by
    have hone := hwhole.sending.up hpassed.1.1.up
    have hcount : s₁.clients.countP Client.inside = 0 := by
      rw [List.countP_eq_zero]
      intro d hd hinside
      have hended := hpassed.1.2 d hd
      rw [not_ended_of_inside hinside] at hended
      cases hended
    omega
  have hrun₂ : run (step smallHost inputFile) (s₀.withClient c) first = some (s₁.withClient c) :=
    run_withClient rfl hrun₁
  have hwhole' := (whole_run hfirst (whole_start setup_exit hstart') hrun₂).1
  obtain ⟨s₂, hturn, hadded, hsame⟩ := exit_turn (c := c) hwhole' (i := s₁.clients.length)
    (by simp [State.withClient]) rfl rfl hfree
  refine ⟨first ++ [.client s₁.clients.length .waits, .client s₁.clients.length .branch], s₂, ?_,
    ?_, hadded, hsame.trans hserved⟩
  · rw [List.forall_mem_append]
    exact ⟨hfirst, by simp [Event.Fresh]⟩
  · rw [hstart', Option.bind_some, run_append, hrun₂, Option.bind_some, hturn]

/-- The child that was in `ChildsPlay` when the command came writes its two results,
and the server returns. -/
theorem exit_settles_plays :
    ∃ schedule s later t, (start smallHost exitCalls fun _ => 0).bind
        (run (step smallHost inputFile) · schedule) = some s ∧ exitReq ∈ s.added ∧
      s.served = [⟨text "/d", text "w"⟩] ∧ run (step smallHost inputFile) s later = some t ∧
      t.pc = .returned ∧ ∃ results : List (List UInt8),
        results.Perm [text "a:1:w\n", text "b:2:w\n"] ∧ t.processes.output = results.flatten := by
  obtain ⟨schedule, s, hfresh, hrun, hadded, hserved⟩ := plays_then_exit
  obtain ⟨⟨later, t, hlater, hrun', hreturned, hsettled⟩, hall⟩ := exit_settles smallHost inputFile
    exitCalls (fun _ => 0) setup_exit schedule hfresh s hrun ⟨exitReq, hadded, Exit.stops_exitReq⟩
  refine ⟨schedule, s, later, t, hrun, hadded, hserved, hrun', hreturned, ?_⟩
  have hexpected : Output.expected inputFile s.served = [text "a:1:w\n", text "b:2:w\n"] := by
    rw [hserved]
    decide
  rw [← hexpected]
  exact (hall later t hlater hrun').2.2 hsettled

end Ends

end Cse420.Server.System
