import Cse420.Server.SystemServes

/-!
The system without an exit command comes to its end. First the clients take
their turns, then `main` empties the queue, then the children make their test,
and at last the children and their threads do their work, which they can by
what was shown of `Output`.
-/

namespace Cse420.Server.System

open CMemory Lister Machine SysVSem Queue
open Output (dequeued)

variable {κ : Type} {host : Host κ} {fs : FileSystem} {s t : State κ} {i : Nat}

/-- No client asks for anything that stops the server, and no child was dropped. -/
structure Calm (fs : FileSystem) (s : State κ) : Prop where
  asks : ∀ r ∈ s.clients.flatMap (Client.asks fs), ¬ Exit.Stops r
  kept : ∀ stage ∈ s.stages, stage ≠ .dropped

/-- All that was asked for has been done. -/
structure Quiet (s : State κ) : Prop where
  clients : ∀ c ∈ s.clients, c.ended = true
  queue : charcount s.server.shm = some 1
  curItem : s.processes.curItem = none
  children : ∀ x ∈ s.stages.zip s.processes.children, x.1 = .childsPlay ∧ x.2.pc = .exited

section Calm

/-- Nothing in the queue stops the server. -/
theorem Whole.calm_pending (h : Whole host fs s) (hcalm : Calm fs s) {k z : Nat}
    {pending : List (List UInt8)} (hq : Exit.Queued (front s) k pending z) :
    ∀ r ∈ pending, ¬ Exit.Stops r := by
  intro r hr
  apply hcalm.asks
  apply h.sending.sent.subset
  apply List.mem_append_left
  rw [show s.added = _ from hq.added]
  exact List.mem_append_right _ hr

theorem Whole.calm_noExit (h : Whole host fs s) (hcalm : Calm fs s) :
    noExit s.server.shm = some true := by
  obtain ⟨k, pending, z, hq⟩ := h.queued
  refine hq.noExit.trans ?_
  rw [decide_eq_true (h.calm_pending hcalm hq)]

/-- What `charcount` says about the queue. -/
theorem queued_charcount {k z : Nat} {pending : List (List UInt8)}
    (hq : Exit.Queued (front s) k pending z) :
    charcount s.server.shm = some (1 + pending.length) := by
  rw [show s.server.shm = _ from hq.shm]
  exact charcount_image k pending z hq.clean

theorem addReq_stages (s : State κ) (r : List UInt8) : (s.addReq r).stages = s.stages := by
  unfold State.addReq State.checked
  split <;> rfl

variable [DecidableEq κ]

theorem client_stages {c : Client κ} {event : ClientEvent} (h : Whole host fs s)
    (hi : s.clients[i]? = some c) (hstep : clientStep host fs s i c event = some t) :
    t.stages = s.stages := by
  rcases client_cases h.sending hi hstep with ⟨after, -, -, rfl⟩ | ⟨pc, -, -, -, -, rfl⟩ |
      ⟨pc, r, -, -, -, -, -, rfl⟩ | ⟨-, rfl⟩
  · rfl
  · rfl
  · exact addReq_stages s r
  · rfl

/-- The steps of `main` while nothing stops it. -/
theorem main_calm (h : Whole host fs s) (hcalm : Calm fs s) {k z : Nat}
    {pending : List (List UInt8)} (hq : Exit.Queued (front s) k pending z) :
    (s.pc = .loopTest ∧ mainStep host zeroBlock s = some { s with pc := .count }) ∨
      (s.pc = .count ∧ mainStep host zeroBlock s = some { s with
        pc := if 1 < 1 + pending.length then .retest else .loopTest }) ∨
      (s.pc = .retest ∧ mainStep host zeroBlock s = some { s with pc := .dequeue }) ∨
      (s.pc = .dequeue ∧ s.processes.curItem = none ∧ ∃ item server,
        mainStep host zeroBlock s = some ({ s with
          server
          pc := .forkTest
          processes := { s.processes with curItem := some item } }.semIni
            (host.SEMfr item.dirpath) 1)) ∨
      (s.pc = .forkTest ∧ mainStep host zeroBlock s = some { s with pc := .fork }) ∨
      (s.pc = .fork ∧ ∃ item, s.processes.curItem = some item ∧
        mainStep host zeroBlock s =
          some (s.forks item .childTest (fun _ => 0) .parentTest)) ∨
      (s.pc = .parentTest ∧ mainStep host zeroBlock s = some { s with pc := .loopTest }) := by
  have hno := h.calm_noExit hcalm
  have hpending := h.calm_pending hcalm hq
  have hplace : Exit.Placed (front s).curItem pending s.pc := hq.place
  have hstops : ¬ ∃ r ∈ pending, Exit.Stops r := by
    rintro ⟨r, hr, hbad⟩
    exact hpending r hr hbad
  cases hpc : s.pc with
  | loopTest => simp [mainStep, hpc, State.test, State.checked, hno]
  | count =>
      simp [mainStep, hpc, State.checked, queued_charcount hq]
  | retest => simp [mainStep, hpc, State.test, State.checked, hno]
  | dequeue =>
      obtain ⟨item, server, hdequeue, hcur, -, -⟩ := h.dequeueItem hpc
      have hblock : List.length zeroBlock = 1024 := zeroBlock_length
      refine .inr (.inr (.inr (.inl ⟨rfl, hcur, item, server, ?_⟩)))
      simp only [mainStep, hpc, hblock, if_true, hdequeue, State.checked]
  | forkTest => simp [mainStep, hpc, State.test, State.checked, hno]
  | fork =>
      rw [hpc] at hplace
      have hsome : s.processes.curItem.isSome = true := by
        simpa [front, Exit.Placed] using hplace
      obtain ⟨item, hcur⟩ := Option.isSome_iff_exists.mp hsome
      simp [mainStep, hpc, State.checked, hcur]
  | parentTest => simp [mainStep, hpc, State.test, State.checked, hno]
  | childTest =>
      rw [hpc] at hplace
      exact absurd hplace hstops
  | wait =>
      rw [hpc] at hplace
      exact absurd hplace hstops
  | returned =>
      rw [hpc] at hplace
      exact absurd hplace hstops
  | exited =>
      rw [hpc] at hplace
      exact absurd hplace id

theorem main_stages (h : Whole host fs s) (hcalm : Calm fs s)
    (hstep : mainStep host zeroBlock s = some t) : ∀ stage ∈ t.stages, stage ≠ .dropped := by
  obtain ⟨k, pending, z, hq⟩ := h.queued
  rcases main_calm h hcalm hq with ⟨-, hmain⟩ | ⟨-, hmain⟩ | ⟨-, hmain⟩ |
      ⟨-, -, item, server, hmain⟩ | ⟨-, hmain⟩ | ⟨-, item, -, hmain⟩ | ⟨-, hmain⟩
  all_goals rw [← Option.some.inj (hmain.symm.trans hstep)]
  · exact hcalm.kept
  · exact hcalm.kept
  · exact hcalm.kept
  · exact hcalm.kept
  · exact hcalm.kept
  · simp only [State.forks, List.forall_mem_append, List.forall_mem_singleton]
    exact ⟨hcalm.kept, by simp⟩
  · exact hcalm.kept

theorem calm_step {event : Event} (hfresh : event.Fresh) (h : Whole host fs s)
    (hcalm : Calm fs s) (hstep : step host fs s event = some t) : Calm fs t := by
  have hasks := step_asks h hstep
  simp only [step, h.live.1.safe, Bool.false_eq_true, if_false] at hstep
  constructor
  · rw [hasks]
    exact hcalm.asks
  · cases event with
    | client i event =>
        obtain ⟨c, hi, hclient⟩ := Option.bind_eq_some_iff.mp hstep
        rw [client_stages h hi hclient]
        exact hcalm.kept
    | main block =>
        rw [show block = zeroBlock from hfresh] at hstep
        exact main_stages h hcalm hstep
    | child i event =>
        cases event with
        | test =>
            simp only [h.calm_noExit hcalm, State.checked, if_true,
              Option.ite_none_right_eq_some, Option.some.injEq] at hstep
            obtain ⟨-, rfl⟩ := hstep
            intro stage hmem
            rcases List.mem_or_eq_of_mem_set hmem with hmem | rfl
            · exact hcalm.kept stage hmem
            · simp
        | play event =>
            simp only [Option.ite_none_right_eq_some] at hstep
            obtain ⟨q, -, rfl⟩ := Option.map_eq_some_iff.mp hstep.2
            exact hcalm.kept
    | worker i j event =>
        simp only [Option.ite_none_right_eq_some] at hstep
        obtain ⟨q, -, rfl⟩ := Option.map_eq_some_iff.mp hstep.2
        exact hcalm.kept

end Calm

section Clients

/-- The steps a client has before it. -/
def Client.left (fs : FileSystem) (c : Client κ) : Nat :=
  match c.pc with
  | .waits => ((c.args.path.bind (openInput fs)).getD []).length + 4
  | .branch => ((c.args.path.bind (openInput fs)).getD []).length + 3
  | .readfile rest _ => rest.length + 2
  | .signals => 1
  | .exited => 0

variable [DecidableEq κ] {c : Client κ}

/-- A client inside needs nobody else. -/
theorem client_moves (h : Whole host fs s) (hi : s.clients[i]? = some c)
    (hinside : c.inside = true) :
    ∃ event t next, clientStep host fs s i c event = some t ∧ t.clients = s.clients.set i next ∧
      next.left fs < c.left fs := by
  have hready := h.sending.ready c (List.mem_of_getElem? hi)
  cases hpc : c.pc with
  | branch =>
      cases hpath : c.args.path with
      | none =>
          refine ⟨.branch, (s.addReq exitReq).setClient i { c with pc := .signals },
            { c with pc := .signals }, ?_, ?_, ?_⟩
          · simp only [clientStep, hpc, hpath]
          · rw [State.setClient, addReq_clients]
          · simp [Client.left, hpc]
      | some path =>
          cases hopen : openInput fs path with
          | none =>
              refine ⟨.branch, s.setClient i { c with pc := .signals }, { c with pc := .signals },
                ?_, rfl, ?_⟩
              · simp only [clientStep, hpc, hpath, hopen]
              · simp [Client.left, hpc]
          | some file =>
              let next : Client κ := { c with pc := .readfile file c.buffer }
              refine ⟨.branch, s.setClient i next, next, ?_, rfl, ?_⟩
              · simp only [clientStep, hpc, hpath, hopen, next]
              · simp [Client.left, hpc, hpath, hopen, next]
  | readfile file buffer =>
      obtain ⟨hfile, hbuffer⟩ := hready.rest file buffer hpc
      cases file with
      | nil =>
          refine ⟨.fgets, s.setClient i { c with pc := .signals }, { c with pc := .signals }, ?_,
            rfl, ?_⟩
          · simp only [clientStep, hpc]
          · simp [Client.left, hpc]
      | cons b file =>
          obtain ⟨filled, r, hturn, -⟩ := readTurn_readable (by simp) hfile hbuffer
          let next : Client κ := { c with pc := .readfile (fgets 1023 (b :: file)).2 filled }
          refine ⟨.fgets, (s.addReq r).setClient i next, next, ?_, ?_, ?_⟩
          · simp only [clientStep, hpc, hturn, State.checked]
            rfl
          · rw [State.setClient, addReq_clients]
          · have hless : (fgets 1023 (b :: file)).2.length < (b :: file).length :=
              fgets_length (by simp)
            simp only [next, Client.left, hpc]
            omega
  | signals =>
      let next : Client κ := { c with pc := .exited, semadj := fun _ => 0 }
      let after := SysVSem.signals host.SEMrq s.processes.semval c.semadj
      refine ⟨.signals, (s.setSemval (undo after.1 after.2)).setClient i next, next, ?_, rfl, ?_⟩
      · simp only [clientStep, hpc, after, next]
      · simp [Client.left, hpc, next]
  | waits => simp [Client.inside, hpc] at hinside
  | exited => simp [Client.inside, hpc] at hinside

/-- The state of a run in which nothing stops the server. -/
def Going (host : Host κ) (fs : FileSystem) (s : State κ) : Prop := Whole host fs s ∧ Calm fs s

theorem going_step {event : Event} (hfresh : event.Fresh) (h : Going host fs s)
    (hstep : step host fs s event = some t) : Going host fs t :=
  ⟨whole_step hfresh h.1 hstep, calm_step hfresh h.1 h.2 hstep⟩

omit [DecidableEq κ] in
theorem Going.up (h : Going host fs s) : s.pc ≠ .returned := by
  obtain ⟨k, pending, z, hq⟩ := h.1.queued
  have hplace : Exit.Placed (front s).curItem pending s.pc := hq.place
  intro hpc
  rw [hpc] at hplace
  obtain ⟨r, hr, hbad⟩ := hplace
  exact h.1.calm_pending h.2 hq r hr hbad

/-- A client goes on, and there is less before the clients. -/
theorem client_nears (h : Going host fs s) {next : Client κ} {event : ClientEvent}
    (hi : s.clients[i]? = some c) (hstep : clientStep host fs s i c event = some t)
    (hclients : t.clients = s.clients.set i next) (hless : next.left fs < c.left fs) :
    ∃ event next, Event.Fresh event ∧ step host fs s event = some next ∧ Going host fs next ∧
      (next.clients.map (Client.left fs)).sum < (s.clients.map (Client.left fs)).sum := by
  have hfresh : (Event.client i event).Fresh := trivial
  have hsystem : step host fs s (.client i event) = some t := by
    simp [step, h.1.live.1.safe, hi, hstep]
  refine ⟨.client i event, t, hfresh, hsystem, going_step hfresh h hsystem, ?_⟩
  have hsum := sum_map_set_add hi next (Client.left fs)
  rw [hclients]
  omega

/-- As long as a client has something to send, one of them can go on. -/
theorem clients_progress (h : Going host fs s) (hnot : ¬ ∀ c ∈ s.clients, c.ended = true) :
    ∃ event next, Event.Fresh event ∧ step host fs s event = some next ∧ Going host fs next ∧
      (next.clients.map (Client.left fs)).sum < (s.clients.map (Client.left fs)).sum := by
  by_cases hsome : ∃ c ∈ s.clients, c.inside = true
  · obtain ⟨c, hc, hinside⟩ := hsome
    obtain ⟨i, hi⟩ := List.getElem?_of_mem hc
    obtain ⟨event, t, next, hstep, hclients, hless⟩ := client_moves h.1 hi hinside
    exact client_nears h hi hstep hclients hless
  · -- nobody is inside, so the semaphore is free for one that waits
    have hfree : s.processes.semval host.SEMrq = 1 := by
      have hone := h.1.sending.up h.up
      have hcount : s.clients.countP Client.inside = 0 := by
        rw [List.countP_eq_zero]
        exact fun c hc hin => hsome ⟨c, hc, hin⟩
      omega
    simp only [not_forall] at hnot
    obtain ⟨c, hc, hrunning⟩ := hnot
    obtain ⟨i, hi⟩ := List.getElem?_of_mem hc
    have hpc : c.pc = .waits := by
      cases hpc : c.pc with
      | waits => rfl
      | exited => simp [Client.ended, hpc] at hrunning
      | _ => exact absurd ⟨c, hc, by simp [Client.inside, hpc]⟩ hsome
    obtain ⟨after, hwaits⟩ : ∃ after,
        SysVSem.waits host.SEMrq s.processes.semval c.semadj = some after := by
      simp [SysVSem.waits, hfree]
    have hstep : clientStep host fs s i c .waits =
        some ((s.setSemval after.1).setClient i { c with pc := .branch, semadj := after.2 }) := by
      simp only [clientStep, hpc, hwaits, Option.map_some]
    exact client_nears h hi hstep rfl (by simp [Client.left, hpc])

end Clients

section Queue

variable [DecidableEq κ]

/-- How far `main` is from the next `dequeueItem`. -/
def rank : Exit.MainPc → Nat
  | .forkTest => 6
  | .fork => 5
  | .parentTest => 4
  | .loopTest => 3
  | .count => 2
  | .retest => 1
  | _ => 0

/-- The requests that `main` has not taken out, and the way to the next one. -/
def mainLeft (fs : FileSystem) (s : State κ) : Nat :=
  10 * ((items (s.clients.flatMap (Client.asks fs))).length - (dequeued s.processes).length) +
    rank s.pc

/-- The clients are through. -/
def Sent (host : Host κ) (fs : FileSystem) (s : State κ) : Prop :=
  Going host fs s ∧ ∀ c ∈ s.clients, c.ended = true

/-- As long as there is a request to be taken out or passed on, `main` comes
nearer to it. -/
theorem main_progress (h : Sent host fs s)
    (hnot : ¬ (charcount s.server.shm = some 1 ∧ s.processes.curItem = none)) :
    ∃ event next, Event.Fresh event ∧ step host fs s event = some next ∧ Sent host fs next ∧
      mainLeft fs next < mainLeft fs s := by
  obtain ⟨hgoing, hended⟩ := h
  obtain ⟨k, pending, z, hq⟩ := hgoing.1.queued
  have hfresh : (Event.main zeroBlock).Fresh := rfl
  have hcount := queued_charcount hq
  have hplace : Exit.Placed (front s).curItem pending s.pc := hq.place
  have hnears {t : State κ} (hmain : mainStep host zeroBlock s = some t)
      (hclients : ∀ c ∈ t.clients, c.ended = true)
      (hless : Whole host fs t → mainLeft fs t < mainLeft fs s) :
      ∃ event next, Event.Fresh event ∧ step host fs s event = some next ∧ Sent host fs next ∧
        mainLeft fs next < mainLeft fs s := by
    have hsystem : step host fs s (.main zeroBlock) = some t := by
      simp [step, hgoing.1.live.1.safe, hmain]
    have hnext := going_step hfresh hgoing hsystem
    exact ⟨_, t, hfresh, hsystem, ⟨hnext, hclients⟩, hless hnext.1⟩
  rcases main_calm hgoing.1 hgoing.2 hq with ⟨hpc, hmain⟩ | ⟨hpc, hmain⟩ | ⟨hpc, hmain⟩ |
      ⟨hpc, hcur, item, server, hmain⟩ | ⟨hpc, hmain⟩ | ⟨hpc, item, hcur, hmain⟩ | ⟨hpc, hmain⟩
  · apply hnears hmain hended
    intro _
    simp [mainLeft, hpc, rank]
  · -- the queue is not empty, so `main` goes on to take a request out
    rw [hpc] at hplace
    have hsome : 1 < 1 + pending.length := by
      by_contra hnone
      apply hnot
      rw [hcount, show pending.length = 0 by omega]
      exact ⟨rfl, by simpa [front, Exit.Placed] using hplace⟩
    rw [if_pos hsome] at hmain
    apply hnears hmain hended
    intro _
    simp [mainLeft, hpc, rank]
  · apply hnears hmain hended
    intro _
    simp [mainLeft, hpc, rank]
  · apply hnears hmain
    · intro c hc
      obtain ⟨d, hd, rfl⟩ := List.mem_map.mp hc
      exact hended d hd
    · intro hwhole
      have hle := hwhole.dequeued_subperm.length_le
      have hlength : (dequeued (Output.semIni (host.SEMfr item.dirpath) 1
          { s.processes with curItem := some item })).length =
            (dequeued s.processes).length + 1 := by
        rw [dequeued_semIni]
        simp [dequeued, hcur]
      rw [semIni_asks] at hle
      simp only [mainLeft, hpc, rank, semIni_asks]
      simp only [State.semIni, hlength] at hle ⊢
      omega
  · apply hnears hmain hended
    intro _
    simp [mainLeft, hpc, rank]
  · apply hnears hmain hended
    intro _
    simp [mainLeft, hpc, rank, State.forks, dequeued, hcur]
  · apply hnears hmain hended
    intro _
    simp [mainLeft, hpc, rank]

end Queue

section Children

variable [DecidableEq κ]

/-- The queue is empty and `main` has passed everything on. -/
def Passed (host : Host κ) (fs : FileSystem) (s : State κ) : Prop :=
  Sent host fs s ∧ charcount s.server.shm = some 1 ∧ s.processes.curItem = none

/-- A child that has not made its test can make it. -/
theorem tests_progress (h : Passed host fs s) (hnot : ¬ ∀ stage ∈ s.stages, stage = .childsPlay) :
    ∃ event next, Event.Fresh event ∧ step host fs s event = some next ∧ Passed host fs next ∧
      next.stages.countP (· = .childTest) < s.stages.countP (· = .childTest) := by
  obtain ⟨⟨hgoing, hended⟩, hqueue⟩ := h
  simp only [not_forall] at hnot
  obtain ⟨stage, hmem, hstage⟩ := hnot
  obtain ⟨i, hi⟩ := List.getElem?_of_mem hmem
  have htest : stage = .childTest := by
    cases stage with
    | childTest => rfl
    | childsPlay => exact absurd rfl hstage
    | dropped => exact absurd rfl (hgoing.2.kept _ hmem)
  rw [htest] at hi
  have hfresh : (Event.child i .test).Fresh := trivial
  have hstep : step host fs s (.child i .test) =
      some { s with stages := s.stages.set i .childsPlay } := by
    simp [step, hgoing.1.live.1.safe, hi, hgoing.1.calm_noExit hgoing.2, State.checked]
  refine ⟨_, _, hfresh, hstep, ⟨⟨going_step hfresh hgoing hstep, hended⟩, hqueue⟩, ?_⟩
  have hcount := countP_set_add hi .childsPlay (· = .childTest)
  simp only [decide_true, Bool.toNat_true, reduceCtorEq, decide_false, Bool.toNat_false] at hcount
  show (s.stages.set i .childsPlay).countP (· = .childTest) < _
  omega

/-- What the children and threads do among themselves they do in the system. -/
theorem lift_processes {later : List Output.Event} {q : Output.State κ} (h : Passed host fs s)
    (hplay : ∀ stage ∈ s.stages, stage = .childsPlay)
    (hrun : run (Output.step host.toIds fs) s.processes later = some q) :
    ∃ schedule, (∀ event ∈ schedule, Event.Fresh event) ∧
      run (step host fs) s schedule = some { s with processes := q } := by
  induction later generalizing s with
  | nil =>
      cases hrun
      exact ⟨[], by simp, rfl⟩
  | cons event rest ih =>
      obtain ⟨p, hstep, hrest⟩ := run_cons hrun
      obtain ⟨⟨hgoing, hended⟩, hcount, hcur⟩ := h
      have hlive := Output.live_step hgoing.1.small hgoing.1.few _ _ p hgoing.1.live hstep
      have hstages {i : Nat} {c : Output.Child κ} (hi : s.processes.children[i]? = some c) :
          s.stages[i]? = some .childsPlay := by
        have hlt := (List.getElem?_eq_some_iff.mp hi).1
        rw [← hgoing.1.length] at hlt
        rw [List.getElem?_eq_getElem hlt, hplay _ (List.getElem_mem hlt)]
      have hgo {system : Event} (hfresh : system.Fresh)
          (hsystem : step host fs s system = some { s with processes := p })
          (hsame : p.curItem = s.processes.curItem) :
          ∃ schedule, (∀ event ∈ schedule, Event.Fresh event) ∧
            run (step host fs) s schedule = some { s with processes := q } := by
        obtain ⟨schedule, hall, hschedule⟩ := ih (s := { s with processes := p })
          ⟨⟨going_step hfresh hgoing hsystem, hended⟩, hcount, hsame.trans hcur⟩ hplay hrest
        refine ⟨system :: schedule, ?_, ?_⟩
        · rw [List.forall_mem_cons]
          exact ⟨hfresh, hall⟩
        · rw [run, hsystem]
          exact hschedule
      cases event with
      | dequeueItem => simp [Output.step, hgoing.1.live.1.safe, hgoing.1.requests] at hstep
      | fork => simp [Output.step, hgoing.1.live.1.safe, hcur] at hstep
      | child i event =>
          obtain ⟨c, next, hmoved, -⟩ := moved_play host.rq_fr hstep hlive.1.safe
          have hfresh : (Event.child i (.play event)).Fresh := trivial
          apply hgo hfresh _ hmoved.curItem
          simp [step, hgoing.1.live.1.safe, hstages hmoved.child, hstep]
      | worker i j event =>
          obtain ⟨c, next, hmoved, -⟩ := moved_worker host.rq_buf hstep hlive.1.safe
          have hfresh : (Event.worker i j event).Fresh := trivial
          apply hgo hfresh _ hmoved.curItem
          simp [step, hgoing.1.live.1.safe, hstages hmoved.child, hstep]

end Children

section Ends

variable [DecidableEq κ]

/-- From every state of a run in which nothing stops the server, all requests can be
brought to `ChildsPlay`. -/
theorem going_plays (h : Going host fs s) :
    ∃ later t, (∀ event ∈ later, Event.Fresh event) ∧ run (step host fs) s later = some t ∧
      Passed host fs t ∧ ∀ stage ∈ t.stages, stage = .childsPlay := by
  obtain ⟨first, s₁, hfirst, hrun₁, hgoing, hended⟩ := run_reaches_by Event.Fresh (Going host fs)
    (fun s => (s.clients.map (Client.left fs)).sum) (fun _ hs hnot => clients_progress hs hnot) s h
  obtain ⟨second, s₂, hsecond, hrun₂, hsent, hcount, hcur⟩ := run_reaches_by Event.Fresh
    (Sent host fs) (mainLeft fs) (fun _ hs hnot => main_progress hs hnot) s₁ ⟨hgoing, hended⟩
  obtain ⟨third, s₃, hthird, hrun₃, hpassed, hplay⟩ := run_reaches_by Event.Fresh
    (Passed host fs) (fun s => s.stages.countP (· = .childTest))
    (fun _ hs hnot => tests_progress hs hnot) s₂ ⟨hsent, hcount, hcur⟩
  refine ⟨first ++ (second ++ third), s₃, ?_, ?_, hpassed, hplay⟩
  · simp only [List.forall_mem_append]
    exact ⟨hfirst, hsecond, hthird⟩
  · rw [run_append, hrun₁, Option.bind_some, run_append, hrun₂, Option.bind_some, hrun₃]

/-- From every state of a run in which nothing stops the server, all that was
asked for can be done. -/
theorem going_ends (h : Going host fs s) :
    ∃ later t, (∀ event ∈ later, Event.Fresh event) ∧ run (step host fs) s later = some t ∧
      Quiet t := by
  obtain ⟨first, s₁, hfirst, hrun₁, hpassed, hplay⟩ := going_plays h
  obtain ⟨later, q, hlater, hfinished⟩ := Output.live_finishes hpassed.1.1.1.small
    hpassed.1.1.1.few s₁.processes hpassed.1.1.1.live
  obtain ⟨second, hsecond, hrun₂⟩ := lift_processes hpassed hplay hlater
  refine ⟨first ++ second, { s₁ with processes := q }, ?_, ?_, ?_⟩
  · rw [List.forall_mem_append]
    exact ⟨hfirst, hsecond⟩
  · rw [run_append, hrun₁, Option.bind_some, hrun₂]
  · refine ⟨hpassed.1.2, hpassed.2.1, hfinished.2.1, ?_⟩
    intro x hx
    obtain ⟨hstage, hchild⟩ := List.of_mem_zip hx
    exact ⟨hplay x.1 hstage, hfinished.2.2 x.2 hchild⟩

omit [DecidableEq κ] in
/-- When every request has come to `ChildsPlay`, everything the clients asked for is
served. -/
theorem Whole.played_served (h : Whole host fs s) (hclients : ∀ c ∈ s.clients, c.ended = true)
    (hqueue : charcount s.server.shm = some 1) (hcur : s.processes.curItem = none)
    (hplay : ∀ x ∈ s.stages.zip s.processes.children, x.1 = .childsPlay) :
    (items (s.clients.flatMap (Client.asks fs))).Perm s.served := by
  obtain ⟨k, pending, z, hq⟩ := h.queued
  have hnone : pending = [] := by
    have hcount := queued_charcount hq
    rw [hqueue, Option.some.injEq] at hcount
    exact List.length_eq_zero_iff.mp (by omega)
  have hrest : s.clients.flatMap (Client.rest fs) = [] := by
    rw [List.flatMap_eq_nil_iff]
    intro c hc
    have hended := hclients c hc
    cases hpc : c.pc with
    | exited => simp [Client.rest, hpc]
    | _ => simp [Client.ended, hpc] at hended
  have hsent := h.sending.sent
  rw [hrest, List.append_nil] at hsent
  have hadded : items s.added = s.processes.children.map Output.Child.curItem := by
    rw [h.items_added hq, hnone, dequeued, hcur]
    simp [items]
  have hserved : s.served = s.processes.children.map Output.Child.curItem := by
    have hall : (s.stages.zip s.processes.children).filter (·.1 = .childsPlay) =
        s.stages.zip s.processes.children := by
      rw [List.filter_eq_self]
      intro x hx
      simp [hplay x hx]
    have hsnd : (s.stages.zip s.processes.children).map Prod.snd = s.processes.children :=
      List.map_snd_zip (le_of_eq h.length.symm)
    rw [State.served, hall, ← congrArg (List.map Output.Child.curItem) hsnd, List.map_map]
    rfl
  rw [hserved, ← hadded]
  exact (hsent.filterMap _).symm

theorem expected_perm {requests others : List Item} (h : requests.Perm others) :
    (Output.expected fs requests).Perm (Output.expected fs others) :=
  (h.flatMap_right _).filterMap _

variable {calls : List (Args × Mem)} {semval : κ → Nat} {schedule : List Event}

theorem going_start (hsetup : Setup host.malloc fs calls)
    (hcalm : ∀ call ∈ calls, ∀ r ∈ call.1.asks fs, ¬ Exit.Stops r)
    (hstart : start host calls semval = some s) : Going host fs s := by
  refine ⟨whole_start hsetup hstart, ?_, ?_⟩
  · rw [start_asks hstart]
    intro r hr
    obtain ⟨call, hcall, hr⟩ := List.mem_flatMap.mp hr
    exact hcalm call hcall r hr
  · obtain ⟨server, -, rfl⟩ := Option.map_eq_some_iff.mp hstart
    simp

omit [DecidableEq κ] in
/-- When all is done, `output.txt` holds the results of all that was asked for. -/
theorem Whole.quiet_output (h : Whole host fs s) (hquiet : Quiet s) :
    ∃ results : List (List UInt8),
      results.Perm (Output.expected fs (items (s.clients.flatMap (Client.asks fs)))) ∧
        s.processes.output = results.flatten := by
  have hsettled : Settled s := fun x hx => .inr (hquiet.children x hx).2
  obtain ⟨results, hperm, houtput⟩ := h.collects hsettled
  exact ⟨results, hperm.trans (expected_perm (h.played_served hquiet.clients hquiet.queue
    hquiet.curItem fun x hx => (hquiet.children x hx).1)).symm, houtput⟩

theorem quiet_output (hsetup : Setup host.malloc fs calls)
    (hfresh : ∀ event ∈ schedule, event.Fresh)
    (hrun : (start host calls semval).bind (run (step host fs) · schedule) = some s)
    (hquiet : Quiet s) :
    ∃ results : List (List UInt8),
      results.Perm (Output.expected fs (items (calls.flatMap fun call => call.1.asks fs))) ∧
        s.processes.output = results.flatten := by
  obtain ⟨s₀, hstart, hrun⟩ := Option.bind_eq_some_iff.mp hrun
  obtain ⟨hwhole, hasks⟩ := whole_run hfresh (whole_start hsetup hstart) hrun
  rw [← start_asks hstart, ← hasks]
  exact hwhole.quiet_output hquiet

/-- Clients that do not ask the server to exit. Under every schedule nothing goes
wrong in memory, whatever has happened all that was asked for can still be done,
and when it is done `output.txt` holds one result for each line of a client's file
and each readable file of its directory, whole and in some order. -/
theorem system_serves (host : Host κ) (fs : FileSystem) (calls : List (Args × Mem))
    (semval : κ → Nat) (hsetup : Setup host.malloc fs calls)
    (hcalm : ∀ call ∈ calls, ∀ r ∈ call.1.asks fs, ¬ Exit.Stops r) (schedule : List Event)
    (hfresh : ∀ event ∈ schedule, event.Fresh) (s : State κ)
    (hrun : (start host calls semval).bind (run (step host fs) · schedule) = some s) :
    s.processes.overrun = false ∧
      (∃ later t, (∀ event ∈ later, Event.Fresh event) ∧ run (step host fs) s later = some t ∧
        Quiet t) ∧
      (Quiet s → ∃ results : List (List UInt8),
        results.Perm (Output.expected fs (items (calls.flatMap fun call => call.1.asks fs))) ∧
          s.processes.output = results.flatten) := by
  obtain ⟨s₀, hstart, hlater⟩ := Option.bind_eq_some_iff.mp hrun
  have hgoing : Going host fs s := run_invariant_by Event.Fresh (Going host fs)
    (fun _ _ _ hs hevent hstep => going_step hevent hs hstep) hfresh
    (going_start hsetup hcalm hstart) hlater
  exact ⟨hgoing.1.live.1.safe, going_ends hgoing, quiet_output hsetup hfresh hrun⟩

/-- `SEMrq` has an identifier of its own. -/
def smallHost : Host Nat where
  SEMbuf := 0
  SEMrq := 1
  SEMfr dirpath := dirpath.length + 2
  malloc := chunks
  apart := by
    intro dirpath
    omega
  rq_buf := by decide
  rq_fr := by
    intro dirpath
    omega

/-- Two clients that are called with the same file. -/
def twoCalls : List (Args × Mem) := [(.file (text "in"), zeroBlock), (.file (text "in"), zeroBlock)]

/-- The file asks for one search in the directory of `twoFiles`. -/
def inputFile : FileSystem where
  opendir := Output.twoFiles.opendir
  fopen path := if path = text "in" then some (text "re/d  w\n") else Output.twoFiles.fopen path

theorem setup_two : Setup chunks inputFile twoCalls where
  buffers := by simp [twoCalls, zeroBlock_length]
  files := by
    simp only [twoCalls, List.forall_mem_cons]
    decide
  fits := ⟨by decide, ⟨by decide, by unfold Output.PathsFit; decide,
    by unfold Output.ResultsFit; decide⟩, by decide⟩

theorem start_isSome (host : Host κ) (calls : List (Args × Mem)) (semval : κ → Nat) :
    ∃ s, start host calls semval = some s := by
  rw [start, initShm_zeros]
  exact ⟨_, rfl⟩

theorem calm_two : ∀ call ∈ twoCalls, ∀ r ∈ call.1.asks inputFile, ¬ Exit.Stops r := by
  simp only [twoCalls, List.forall_mem_cons]
  decide

/-- There is a complete run. -/
theorem quiet_two :
    ∃ schedule s, (∀ event ∈ schedule, Event.Fresh event) ∧
      (start smallHost twoCalls fun _ => 0).bind (run (step smallHost inputFile) · schedule) =
        some s ∧ Quiet s := by
  obtain ⟨s₀, hstart⟩ := start_isSome smallHost twoCalls fun _ => 0
  obtain ⟨later, t, hfresh, hlater, hquiet⟩ := going_ends (going_start setup_two calm_two hstart)
  refine ⟨later, t, hfresh, ?_, hquiet⟩
  rw [hstart]
  exact hlater

/-- There is a complete run, and it leaves the two results of each request. -/
theorem system_serves_two :
    ∃ schedule s, (start smallHost twoCalls fun _ => 0).bind
        (run (step smallHost inputFile) · schedule) = some s ∧
      ∃ results : List (List UInt8),
        results.Perm [text "a:1:w\n", text "b:2:w\n", text "a:1:w\n", text "b:2:w\n"] ∧
          s.processes.output = results.flatten := by
  obtain ⟨s₀, hstart⟩ := start_isSome smallHost twoCalls fun _ => 0
  have hfirst : (start smallHost twoCalls fun _ => 0).bind
      (run (step smallHost inputFile) · []) = some s₀ := by
    rw [hstart]
    rfl
  obtain ⟨-, ⟨later, t, hfresh, hlater, hquiet⟩, -⟩ := system_serves smallHost inputFile twoCalls
    (fun _ => 0) setup_two calm_two [] (by simp) s₀ hfirst
  have hrun : (start smallHost twoCalls fun _ => 0).bind
      (run (step smallHost inputFile) · later) = some t := by
    rw [hstart]
    exact hlater
  refine ⟨later, t, hrun, ?_⟩
  have hexpected : Output.expected inputFile
      (items (twoCalls.flatMap fun call => call.1.asks inputFile)) =
        [text "a:1:w\n", text "b:2:w\n", text "a:1:w\n", text "b:2:w\n"] := by decide
  rw [← hexpected]
  exact (system_serves smallHost inputFile twoCalls (fun _ => 0) setup_two calm_two later hfresh t
    hrun).2.2 hquiet

/-- The clients take turns, also if one of them asks the server to exit. At most
one is between its two semaphore calls, the requests of one client are together
in the queue and in the order of its file, and the server takes them out in the
order of the turns. -/
theorem clients_take_turns (host : Host κ) (fs : FileSystem) (calls : List (Args × Mem))
    (semval : κ → Nat) (hsetup : Setup host.malloc fs calls) (schedule : List Event)
    (hfresh : ∀ event ∈ schedule, event.Fresh) (s : State κ)
    (hrun : (start host calls semval).bind (run (step host fs) · schedule) = some s) :
    s.clients.countP Client.inside ≤ 1 ∧
      (∃ (turns : List (List (List UInt8))) (sent : List (List UInt8)),
        turns.Perm ((s.clients.filter Client.ended).map (Client.asks fs)) ∧
        (sent = [] ∨ ∃ c ∈ s.clients, c.inside = true ∧ sent <+: c.asks fs) ∧
        s.added = turns.flatten ++ sent) ∧
      dequeued s.processes <+: items s.added ∧ s.served.Sublist (items s.added) := by
  obtain ⟨s₀, hstart, hrun⟩ := Option.bind_eq_some_iff.mp hrun
  have hwhole := (whole_run hfresh (whole_start hsetup hstart) hrun).1
  obtain ⟨k, pending, z, hq⟩ := hwhole.queued
  obtain ⟨turns, sent, htogether⟩ := hwhole.sending.together
  refine ⟨hwhole.sending.inside_le, ⟨turns, sent, htogether.order, ?_, htogether.queue⟩, ?_,
    hwhole.served_sublist⟩
  · by_cases hnone : s.clients.countP Client.inside = 0
    · exact .inl (htogether.between hnone)
    · obtain ⟨c, hc, hinside⟩ := List.countP_pos_iff.mp (Nat.pos_of_ne_zero hnone)
      exact .inr ⟨c, hc, hinside, c.rest fs, htogether.turn c hc hinside⟩
  · rw [hwhole.items_added hq]
    exact List.prefix_append _ _

/-- There is a run in which both clients come to their end. -/
theorem clients_take_turns_two :
    ∃ schedule s, (start smallHost twoCalls fun _ => 0).bind
        (run (step smallHost inputFile) · schedule) = some s ∧
      (∀ c ∈ s.clients, c.ended = true) ∧
      ∃ turns : List (List (List UInt8)), turns.Perm (s.clients.map (Client.asks inputFile)) ∧
        s.added = turns.flatten := by
  obtain ⟨later, t, hfresh, hrun, hquiet⟩ := quiet_two
  obtain ⟨-, ⟨turns, sent, horder, hsent, hadded⟩, -⟩ := clients_take_turns smallHost inputFile
    twoCalls (fun _ => 0) setup_two later hfresh t hrun
  have hnone : sent = [] := by
    rcases hsent with hnone | ⟨c, hc, hinside, -⟩
    · exact hnone
    · have hended := hquiet.clients c hc
      rw [not_ended_of_inside hinside] at hended
      cases hended
  refine ⟨later, t, hrun, hquiet.clients, turns, ?_, ?_⟩
  · rw [List.filter_eq_self.mpr hquiet.clients] at horder
    exact horder
  · rw [hadded, hnone, List.append_nil]

end Ends

end Cse420.Server.System
