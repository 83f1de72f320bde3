import Cse420.Server.SystemSteps

/-!
What the clients get. In every run the file `output.txt` holds, once the
children have ended, the results of the requests that were passed to them and
nothing else; if no client sends the exit command these are all requests, and
whatever has happened so far the system can come to this end.
-/

namespace Cse420.Server.System

open CMemory Lister Machine SysVSem Queue
open Output (dequeued)

variable {κ : Type} {host : Host κ} {fs : FileSystem} {s t : State κ} {i j : Nat}

section Children

theorem Whole.child (h : Whole host fs s) {stage : Stage} (hstage : s.stages[i]? = some stage) :
    ∃ c, s.processes.children[i]? = some c := by
  have hlt := (List.getElem?_eq_some_iff.mp hstage).1
  rw [h.length] at hlt
  exact ⟨_, List.getElem?_eq_getElem hlt⟩

theorem front_child {stage : Stage} {c : Output.Child κ} (hstage : s.stages[i]? = some stage)
    (hi : s.processes.children[i]? = some c) :
    (front s).children[i]? = some (frontChild stage c) := by
  simp [front, List.getElem?_zipWith, hstage, hi]

/-- A child makes its own test of the segment. -/
theorem whole_childTest (h : Whole host fs s) (hstage : s.stages[i]? = some .childTest)
    {go : Bool} (hno : noExit s.server.shm = some go) :
    Whole host fs { s with stages := s.stages.set i (if go then .childsPlay else .dropped) } := by
  obtain ⟨c, hi⟩ := h.child hstage
  have hwaits : c.pc = .waits := h.waiting i c (by simp [hstage]) hi
  obtain ⟨k, pending, z, hq⟩ := h.queued
  let moved : Exit.Child := ⟨bytes c.curItem, if go then .childsPlay else .exited false⟩
  have hfront : front { s with stages := s.stages.set i (if go then .childsPlay else .dropped) } =
      { front s with children := (front s).children.set i moved } := by
    simp only [front, set_zipWith frontChild hi]
    cases go with
    | false => rfl
    | true => simp [frontChild, hwaits, moved]
  have hstep : Exit.step (front s) (.child i) = some (front { s with
      stages := s.stages.set i (if go then .childsPlay else .dropped) }) := by
    have hno' : noExit (front s).server.shm = some go := hno
    rw [hfront]
    simp [Exit.step, front_child hstage hi, Exit.childStep, frontChild, hno', moved]
  refine ⟨⟨k, pending, z, (Exit.queued_child hq hstep).1⟩, h.live, h.requests, ?_, ?_, h.split,
    h.apart, h.owns, ?_, h.fits⟩
  · simpa using h.length
  · intro n d hnot hn
    apply h.waiting n d _ hn
    by_cases hsame : i = n
    · rw [← hsame, hstage]
      simp
    · rw [List.getElem?_set_ne hsame] at hnot
      exact hnot
  · exact ⟨h.sending.ready, h.sending.locked, h.sending.up, h.sending.adj, h.sending.others,
      h.sending.sent, h.sending.together⟩

/-- A child in `ChildsPlay` or one of its threads has moved. -/
theorem whole_moved (h : Whole host fs s) {q : Output.State κ} {c next : Output.Child κ}
    (hstage : s.stages[i]? = some .childsPlay) (hmoved : Moved host.SEMrq s.processes q i c next)
    (hlive : Output.Live host.toIds fs (dequeued s.processes) q)
    (hqueued : ∃ k pending z, Exit.Queued (front { s with processes := q }) k pending z) :
    Whole host fs { s with processes := q } := by
  obtain ⟨hvalue, hadj⟩ := hmoved.apart (h.apart c (List.mem_of_getElem? hmoved.child))
  have hrequests : q.requests = [] := hmoved.requests.trans h.requests
  have hitems : dequeued q = dequeued s.processes := by
    rw [dequeued, dequeued, hmoved.children, hmoved.curItem,
      map_set_same hmoved.child Output.Child.curItem hmoved.item]
  refine ⟨hqueued, ?_, hrequests, ?_, ?_, ?_, ?_, h.owns, ?_, h.fits⟩
  · rw [hitems]
    exact hlive
  · rw [hmoved.children, List.length_set]
    exact h.length
  · intro n d hnot hn
    by_cases hsame : i = n
    · rw [← hsame, hstage] at hnot
      exact absurd rfl hnot
    · rw [hmoved.children, List.getElem?_set_ne hsame] at hn
      exact h.waiting n d hnot hn
  · rw [hitems]
    exact h.split
  · intro d hd
    rw [hmoved.children] at hd
    rcases List.mem_or_eq_of_mem_set hd with hd | rfl
    · exact h.apart d hd
    · exact hadj
  · refine ⟨h.sending.ready, ?_, ?_, h.sending.adj, h.sending.others, h.sending.sent,
      h.sending.together⟩
    · rw [hvalue]
      exact h.sending.locked
    · rw [hvalue]
      exact h.sending.up

theorem front_moved {q : Output.State κ} {c next : Output.Child κ} {stage : Stage}
    (hstage : s.stages[i]? = some stage) (hmoved : Moved host.SEMrq s.processes q i c next) :
    front { s with processes := q } =
      { front s with children := (front s).children.set i (frontChild stage next) } := by
  simp only [front, hmoved.children, hmoved.curItem, zipWith_set frontChild hstage]

variable [DecidableEq κ]

/-- A child that goes on is the same for `Exit`, which sees only its end. -/
theorem whole_play {event : Output.ChildEvent} {q : Output.State κ} (h : Whole host fs s)
    (hstage : s.stages[i]? = some .childsPlay)
    (hstep : Output.step host.toIds fs s.processes (.child i event) = some q) :
    Whole host fs { s with processes := q } := by
  have hlive := Output.live_step h.small h.few _ _ q h.live hstep
  obtain ⟨c, next, hmoved, hgoes⟩ := moved_play host.rq_fr hstep hlive.1.safe
  obtain ⟨k, pending, z, hq⟩ := h.queued
  have hfront := front_moved hstage hmoved
  have hchild := front_child hstage hmoved.child
  apply whole_moved h hstage hmoved hlive
  by_cases hexited : next.pc = .exited
  · have hexit : Exit.step (front s) (.child i) = some (front { s with processes := q }) := by
      rw [hfront]
      simp [Exit.step, hchild, Exit.childStep, frontChild, hgoes, hexited, hmoved.item]
    exact ⟨k, pending, z, (Exit.queued_child hq hexit).1⟩
  · have hsame : frontChild .childsPlay next = frontChild .childsPlay c := by
      simp [frontChild, hgoes, hexited, hmoved.item]
    rw [hfront, hsame, set_same hchild]
    exact ⟨k, pending, z, hq⟩

theorem whole_worker {event : Output.WorkerEvent} {q : Output.State κ} (h : Whole host fs s)
    (hstage : s.stages[i]? = some .childsPlay)
    (hstep : Output.step host.toIds fs s.processes (.worker i j event) = some q) :
    Whole host fs { s with processes := q } := by
  have hlive := Output.live_step h.small h.few _ _ q h.live hstep
  obtain ⟨c, next, hmoved, hpc⟩ := moved_worker host.rq_buf hstep hlive.1.safe
  have hsame : frontChild .childsPlay next = frontChild .childsPlay c := by
    simp [frontChild, hpc, hmoved.item]
  apply whole_moved h hstage hmoved hlive
  rw [front_moved hstage hmoved, hsame, set_same (front_child hstage hmoved.child)]
  exact h.queued

end Children

section Runs

variable [DecidableEq κ]

/-- `malloc` returns a zero-filled block. -/
def Event.Fresh : Event → Prop
  | .main block => block = zeroBlock
  | _ => True

/-- Every step of the system with zero-filled blocks keeps the invariant. -/
theorem whole_step {event : Event} (hfresh : event.Fresh) (h : Whole host fs s)
    (hstep : step host fs s event = some t) : Whole host fs t := by
  simp only [step, h.live.1.safe, Bool.false_eq_true, if_false] at hstep
  cases event with
  | client i event =>
      obtain ⟨c, hi, hclient⟩ := Option.bind_eq_some_iff.mp hstep
      exact whole_clientStep h hi hclient
  | main block =>
      rw [show block = zeroBlock from hfresh] at hstep
      exact whole_mainStep h hstep
  | child i event =>
      cases event with
      | test =>
          simp only [Option.ite_none_right_eq_some, Option.some.injEq] at hstep
          obtain ⟨hstage, rfl⟩ := hstep
          obtain ⟨k, pending, z, hq⟩ := h.queued
          have hno : noExit s.server.shm = some (decide (∀ r ∈ pending, ¬ Exit.Stops r)) :=
            hq.noExit
          simp only [hno, State.checked]
          exact whole_childTest h hstage hno
      | play event =>
          simp only [Option.ite_none_right_eq_some] at hstep
          obtain ⟨q, hplay, rfl⟩ := Option.map_eq_some_iff.mp hstep.2
          exact whole_play h hstep.1 hplay
  | worker i j event =>
      simp only [Option.ite_none_right_eq_some] at hstep
      obtain ⟨q, hworker, rfl⟩ := Option.map_eq_some_iff.mp hstep.2
      exact whole_worker h hstep.1 hworker

omit [DecidableEq κ] in
theorem checked_asks {α : Type} {done : Option α} {next : α → State κ}
    (hnext : ∀ a, (next a).clients.flatMap (Client.asks fs) =
      s.clients.flatMap (Client.asks fs)) :
    (s.checked done next).clients.flatMap (Client.asks fs) =
      s.clients.flatMap (Client.asks fs) := by
  unfold State.checked
  split
  · rfl
  · exact hnext _

theorem mainStep_asks {block : Mem} (hstep : mainStep host block s = some t) :
    t.clients.flatMap (Client.asks fs) = s.clients.flatMap (Client.asks fs) := by
  have htest (stay leave : Exit.MainPc) : (s.test stay leave).clients.flatMap (Client.asks fs) =
      s.clients.flatMap (Client.asks fs) := checked_asks fun _ => rfl
  cases hpc : s.pc with
  | dequeue =>
      simp only [mainStep, hpc, Option.ite_none_right_eq_some, Option.some.injEq] at hstep
      rw [← hstep.2]
      apply checked_asks
      intro _
      exact semIni_asks _ _ _
  | childTest =>
      simp only [mainStep, hpc, Option.some.injEq] at hstep
      rw [← hstep]
      apply checked_asks
      intro go
      cases go with
      | false => rfl
      | true => exact checked_asks fun _ => rfl
  | wait =>
      simp only [mainStep, hpc, Option.ite_none_right_eq_some, Option.some.injEq] at hstep
      rw [← hstep.2]
      rfl
  | count =>
      simp only [mainStep, hpc, Option.some.injEq] at hstep
      rw [← hstep]
      exact checked_asks fun _ => rfl
  | fork =>
      simp only [mainStep, hpc, Option.some.injEq] at hstep
      rw [← hstep]
      exact checked_asks fun _ => rfl
  | loopTest =>
      simp only [mainStep, hpc, Option.some.injEq] at hstep
      rw [← hstep]
      exact htest _ _
  | retest =>
      simp only [mainStep, hpc, Option.some.injEq] at hstep
      rw [← hstep]
      exact htest _ _
  | forkTest =>
      simp only [mainStep, hpc, Option.some.injEq] at hstep
      rw [← hstep]
      exact htest _ _
  | parentTest =>
      simp only [mainStep, hpc, Option.some.injEq] at hstep
      rw [← hstep]
      exact htest _ _
  | returned => simp [mainStep, hpc] at hstep
  | exited => simp [mainStep, hpc] at hstep

omit [DecidableEq κ] in
theorem addReq_clients (s : State κ) (r : List UInt8) : (s.addReq r).clients = s.clients := by
  unfold State.addReq State.checked
  split <;> rfl

/-- What the clients ask for is settled when they are called. -/
theorem step_asks {event : Event} (h : Whole host fs s) (hstep : step host fs s event = some t) :
    t.clients.flatMap (Client.asks fs) = s.clients.flatMap (Client.asks fs) := by
  simp only [step, h.live.1.safe, Bool.false_eq_true, if_false] at hstep
  cases event with
  | client i event =>
      obtain ⟨c, hi, hclient⟩ := Option.bind_eq_some_iff.mp hstep
      rcases client_cases h.sending hi hclient with ⟨after, -, -, rfl⟩ | ⟨pc, -, -, -, -, rfl⟩ |
          ⟨pc, r, -, -, -, -, -, rfl⟩ | ⟨-, rfl⟩
      · exact flatMap_asks_set hi { c with pc := .branch, semadj := after.2 } rfl
      · exact flatMap_asks_set hi { c with pc } rfl
      · rw [State.setClient, addReq_clients]
        exact flatMap_asks_set hi { c with pc } rfl
      · exact flatMap_asks_set hi { c with pc := .exited, semadj := fun _ => 0 } rfl
  | main block => exact mainStep_asks hstep
  | child i event =>
      cases event with
      | test =>
          simp only [Option.ite_none_right_eq_some, Option.some.injEq] at hstep
          rw [← hstep.2]
          exact checked_asks fun _ => rfl
      | play event =>
          simp only [Option.ite_none_right_eq_some] at hstep
          obtain ⟨q, -, rfl⟩ := Option.map_eq_some_iff.mp hstep.2
          rfl
  | worker i j event =>
      simp only [Option.ite_none_right_eq_some] at hstep
      obtain ⟨q, -, rfl⟩ := Option.map_eq_some_iff.mp hstep.2
      rfl

/-- What is promised about the calls of the clients. Their files are ones that
`readfile` gets right, and the requests fit the segment and the tables of the
server. -/
structure Setup (malloc : Malloc) (fs : FileSystem) (calls : List (Args × Mem)) : Prop where
  buffers : ∀ call ∈ calls, call.2.length = 1024
  files : ∀ call ∈ calls, ∀ path ∈ call.1.path, ∀ file ∈ openInput fs path, Readable malloc file
  fits : Fits fs (calls.flatMap fun call => call.1.asks fs)

omit [DecidableEq κ] in
theorem sending_start (host : Host κ) {calls : List (Args × Mem)}
    (hsetup : Setup host.malloc fs calls)
    (hclients : s.clients = calls.map fun call => ⟨call.1, call.2, .waits, fun _ => 0⟩)
    (hadded : s.added = []) (hvalue : s.processes.semval host.SEMrq = 1) :
    Sending host fs s := by
  have hmem : ∀ c ∈ s.clients, ∃ call ∈ calls, c = ⟨call.1, call.2, .waits, fun _ => 0⟩ := by
    intro c hc
    rw [hclients] at hc
    obtain ⟨call, hcall, rfl⟩ := List.mem_map.mp hc
    exact ⟨call, hcall, rfl⟩
  have hcount : s.clients.countP Client.inside = 0 := by
    rw [List.countP_eq_zero]
    intro c hc
    obtain ⟨call, -, rfl⟩ := hmem c hc
    simp [Client.inside]
  have hended : s.clients.filter Client.ended = [] := by
    rw [List.filter_eq_nil_iff]
    intro c hc
    obtain ⟨call, -, rfl⟩ := hmem c hc
    simp [Client.ended]
  have hrest : s.clients.flatMap (Client.rest fs) = s.clients.flatMap (Client.asks fs) := by
    apply List.flatMap_congr
    intro c hc
    obtain ⟨call, -, rfl⟩ := hmem c hc
    rfl
  constructor
  · intro c hc
    obtain ⟨call, hcall, rfl⟩ := hmem c hc
    exact ⟨hsetup.buffers call hcall, hsetup.files call hcall, by simp⟩
  · omega
  · intro _
    omega
  · intro c hc
    obtain ⟨call, -, rfl⟩ := hmem c hc
    rfl
  · intro c hc semid _
    obtain ⟨call, -, rfl⟩ := hmem c hc
    rfl
  · rw [hadded, hrest, List.nil_append]
  · refine ⟨[], [], ?_, hadded, ?_, fun _ => rfl⟩
    · simp [hended]
    · intro c hc hin
      exact absurd hin (List.countP_eq_zero.mp hcount c hc)

theorem start_asks {calls : List (Args × Mem)} {semval : κ → Nat}
    (hstart : start host calls semval = some s) :
    s.clients.flatMap (Client.asks fs) = calls.flatMap fun call => call.1.asks fs := by
  obtain ⟨server, -, rfl⟩ := Option.map_eq_some_iff.mp hstart
  rw [List.flatMap_map]
  rfl

theorem whole_start {calls : List (Args × Mem)} {semval : κ → Nat}
    (hsetup : Setup host.malloc fs calls) (hstart : start host calls semval = some s) :
    Whole host fs s := by
  have hfits := hsetup.fits
  rw [← start_asks hstart] at hfits
  obtain ⟨server, hserver, rfl⟩ := Option.map_eq_some_iff.mp hstart
  have hqueued : Exit.start = some ⟨server, .loopTest, none, [], []⟩ := by
    rw [Exit.start, hserver]
    rfl
  refine ⟨⟨_, _, _, Exit.queued_start hqueued⟩, ?_, rfl, rfl, ?_, ?_, ?_, ⟨?_, ?_⟩, ?_, hfits⟩
  · exact ⟨Output.good_start .., Output.opens_start ..⟩
  · simp [Output.start]
  · simp [Output.start, dequeued]
  · simp [Output.start]
  · simp
  · intro semid hne
    simp [Function.update_of_ne hne]
  · apply sending_start host hsetup
    · rfl
    · rfl
    · simp [Output.start, Function.update_of_ne host.rq_buf]

/-- The invariant along a run with zero-filled blocks. -/
theorem whole_run {schedule : List Event} (hfresh : ∀ event ∈ schedule, event.Fresh)
    (h : Whole host fs s) (hrun : run (step host fs) s schedule = some t) :
    Whole host fs t ∧ t.clients.flatMap (Client.asks fs) = s.clients.flatMap (Client.asks fs) := by
  apply run_invariant_by Event.Fresh (fun u => Whole host fs u ∧
    u.clients.flatMap (Client.asks fs) = s.clients.flatMap (Client.asks fs)) _ hfresh ⟨h, rfl⟩ hrun
  rintro u event next ⟨hu, hasks⟩ hevent hstep
  exact ⟨whole_step hevent hu hstep, (step_asks hu hstep).trans hasks⟩

end Runs

section Results

/-- The requests whose children went through their test to `ChildsPlay`. -/
def State.served (s : State κ) : List Item :=
  ((s.stages.zip s.processes.children).filter (·.1 = .childsPlay)).map (·.2.curItem)

/-- Every child has ended, with its work or without. -/
def Settled (s : State κ) : Prop :=
  ∀ x ∈ s.stages.zip s.processes.children, x.1 = .dropped ∨ x.2.pc = .exited

/-- Children without a thread do not count. -/
theorem good_played {requests : List Item} {p : Output.State κ} {ids : Output.Ids κ}
    (h : Output.Good ids fs requests p) {played : List (Output.Child κ)}
    (hsub : ∀ c ∈ played, c ∈ p.children)
    (hworkers : Output.allWorkers played = Output.allWorkers p.children) :
    Output.Good ids fs (played.map Output.Child.curItem)
      { p with requests := [], curItem := none, children := played } where
  safe := h.safe
  items := by simp
  serves := fun c hc => h.serves c (hsub c hc)
  sound := by
    rw [hworkers]
    exact h.sound
  locked := by
    refine ⟨?_, fun c hc => h.locked.adj c (hsub c hc)⟩
    rw [hworkers]
    exact h.locked.value
  accounted := by
    rw [hworkers]
    exact h.accounted

theorem flatMap_filter_of_nil {α β : Type} {l : List α} {p : α → Bool} {f : α → List β}
    (h : ∀ a ∈ l, p a = false → f a = []) : (l.filter p).flatMap f = l.flatMap f := by
  induction l with
  | nil => rfl
  | cons a l ih =>
      rw [List.forall_mem_cons] at h
      cases hp : p a with
      | true => rw [List.filter_cons_of_pos hp, List.flatMap_cons, List.flatMap_cons, ih h.2]
      | false =>
          rw [List.filter_cons_of_neg (by simp [hp]), List.flatMap_cons, h.1 hp, ih h.2]
          rfl

/-- The child of a stage is found at the same place. -/
theorem zip_child {x : Stage × Output.Child κ} (hx : x ∈ s.stages.zip s.processes.children) :
    ∃ i : Nat, s.stages[i]? = some x.1 ∧ s.processes.children[i]? = some x.2 := by
  obtain ⟨i, hi⟩ := List.getElem?_of_mem hx
  exact ⟨i, List.getElem?_zip_eq_some.mp hi⟩

/-- When the children have ended, the file holds the results of the requests
that were passed to `ChildsPlay`, each of them once, and nothing else. -/
theorem Whole.collects (h : Whole host fs s) (hsettled : Settled s) :
    ∃ results : List (List UInt8), results.Perm (Output.expected fs s.served) ∧
      s.processes.output = results.flatten := by
  let pairs := s.stages.zip s.processes.children
  let played := (pairs.filter (·.1 = .childsPlay)).map Prod.snd
  have hsnd : pairs.map Prod.snd = s.processes.children :=
    List.map_snd_zip (le_of_eq h.length.symm)
  have hsub : ∀ c ∈ played, c ∈ s.processes.children := by
    intro c hc
    obtain ⟨x, hx, rfl⟩ := List.mem_map.mp hc
    rw [← hsnd]
    exact List.mem_map.mpr ⟨x, List.mem_of_mem_filter hx, rfl⟩
  have hworkers : Output.allWorkers played = Output.allWorkers s.processes.children := by
    rw [← hsnd]
    simp only [Output.allWorkers, played, List.flatMap_map]
    apply flatMap_filter_of_nil
    intro x hx hstage
    obtain ⟨i, hi, hchild⟩ := zip_child hx
    have hwaits := h.waiting i x.2 (by simpa [hi] using hstage) hchild
    have hserves := h.live.1.serves x.2 (List.mem_of_getElem? hchild)
    rw [Output.Child.Serves, hwaits] at hserves
    exact hserves
  have hgood := good_played h.live.1 hsub hworkers
  have hitems : played.map Output.Child.curItem = s.served := by
    simp only [played, State.served, List.map_map]
    rfl
  rw [hitems] at hgood
  have hexited : ∀ c ∈ played, c.pc = .exited := by
    intro c hc
    obtain ⟨x, hx, rfl⟩ := List.mem_map.mp hc
    obtain ⟨hx, hstage⟩ := List.mem_filter.mp hx
    rw [decide_eq_true_eq] at hstage
    rcases hsettled x hx with hdropped | hexited
    · rw [hstage] at hdropped
      cases hdropped
    · exact hexited
  have hend := Output.good_finished hgood ⟨rfl, rfl, hexited⟩
  exact hend

/-- What is served is part of what was appended, in the same order. -/
theorem Whole.served_sublist (h : Whole host fs s) : s.served.Sublist (items s.added) := by
  obtain ⟨k, pending, z, hq⟩ := h.queued
  rw [h.items_added hq, dequeued, List.append_assoc]
  apply List.Sublist.trans _ (List.sublist_append_left _ _)
  have hsnd : (s.stages.zip s.processes.children).map Prod.snd = s.processes.children :=
    List.map_snd_zip (le_of_eq h.length.symm)
  have hall : (s.stages.zip s.processes.children).map (·.2.curItem) =
      s.processes.children.map Output.Child.curItem := by
    rw [← congrArg (List.map Output.Child.curItem) hsnd, List.map_map]
    rfl
  rw [← hall]
  exact List.filter_sublist.map _

end Results

end Cse420.Server.System
