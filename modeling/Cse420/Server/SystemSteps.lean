import Cse420.Server.SystemClients

/-!
The system does what its parts do. A step of the system is a step of `main` with
its queue as in `Exit`, a step of the children and threads as in `Output`, or
both, so what these two keep holds of the system too.
-/

namespace Cse420.Server.System

open CMemory Lister Machine SysVSem Queue
open Output (dequeued)

variable {κ : Type}

section Processes

/-- One child moves, and a semaphore that it does not use stays as it is. -/
structure Moved (semid : κ) (p q : Output.State κ) (i : Nat) (c next : Output.Child κ) : Prop where
  child : p.children[i]? = some c
  children : q.children = p.children.set i next
  item : next.curItem = c.curItem
  requests : q.requests = p.requests
  curItem : q.curItem = p.curItem
  apart : c.semadj semid = 0 → q.semval semid = p.semval semid ∧ next.semadj semid = 0

variable [DecidableEq κ] {ids : Output.Ids κ} {fs : FileSystem} {p q : Output.State κ} {i j : Nat}

theorem moved_play {event : Output.ChildEvent} {semid : κ}
    (hfr : ∀ dirpath, ids.SEMfr dirpath ≠ semid)
    (hstep : Output.step ids fs p (.child i event) = some q) (hsafe : q.overrun = false) :
    ∃ c next, Moved semid p q i c next ∧ c.pc ≠ .exited := by
  simp only [Output.step, Option.ite_none_left_eq_some] at hstep
  obtain ⟨c, hi, hchild⟩ := Option.bind_eq_some_iff.mp hstep.2
  have hexit : Output.childExit p i c = q → c.pc ≠ .exited →
      ∃ c next, Moved semid p q i c next ∧ c.pc ≠ .exited := by
    rintro rfl hpc
    exact ⟨c, _, ⟨hi, rfl, rfl, rfl, rfl, fun hzero => ⟨undo_zero hzero, rfl⟩⟩, hpc⟩
  cases event with
  | waits =>
      simp only [Output.childStep, Option.ite_none_right_eq_some, Option.map_eq_some_iff] at hchild
      obtain ⟨hpc, after, hwaits, rfl⟩ := hchild
      obtain ⟨hvalue, hadj⟩ := waits_frame hwaits (hfr c.curItem.dirpath).symm
      exact ⟨c, _, ⟨hi, rfl, rfl, rfl, rfl, fun hzero => ⟨hvalue, hadj.trans hzero⟩⟩, by simp [hpc]⟩
  | opendir =>
      simp only [Output.childStep, Option.ite_none_right_eq_some] at hchild
      obtain ⟨hpc, hopened⟩ := hchild
      split at hopened
      · exact hexit (Option.some.inj hopened) (by simp [hpc])
      · cases hopened
        exact ⟨c, _, ⟨hi, rfl, rfl, rfl, rfl, fun hzero => ⟨rfl, hzero⟩⟩, by simp [hpc]⟩
  | readdir =>
      cases hpc : c.pc with
      | readdir rest =>
          have hgoes : c.pc ≠ .exited := by simp [hpc]
          cases rest with
          | nil =>
              simp only [Output.childStep, hpc, Option.some.injEq] at hchild
              subst hchild
              exact ⟨c, _, ⟨hi, rfl, rfl, rfl, rfl, fun hzero => ⟨rfl, hzero⟩⟩, hgoes⟩
          | cons entry rest =>
              simp only [Output.childStep, hpc, Output.readdirStep] at hchild
              split at hchild
              · cases hchild
                cases hsafe
              · rename_i moved hmoved
                cases hchild
                refine ⟨c, moved, ⟨hi, rfl, ?_, rfl, rfl, fun hzero => ⟨rfl, ?_⟩⟩, hgoes⟩
                · split at hmoved
                  · rw [Option.ite_none_right_eq_some] at hmoved
                    rw [← Option.some.inj hmoved.2]
                  · rw [← Option.some.inj hmoved]
                · split at hmoved
                  · rw [Option.ite_none_right_eq_some] at hmoved
                    rw [← Option.some.inj hmoved.2]
                    exact hzero
                  · rw [← Option.some.inj hmoved]
                    exact hzero
      | _ => simp [Output.childStep, hpc] at hchild
  | signals =>
      simp only [Output.childStep, Option.ite_none_right_eq_some, Option.some.injEq] at hchild
      obtain ⟨hpc, rfl⟩ := hchild
      obtain ⟨hvalue, hadj⟩ := signals_frame p.semval c.semadj (hfr c.curItem.dirpath).symm
      exact ⟨c, _, ⟨hi, rfl, rfl, rfl, rfl, fun hzero => ⟨hvalue, hadj.trans hzero⟩⟩, by simp [hpc]⟩
  | exit =>
      simp only [Output.childStep, Option.ite_none_right_eq_some, Option.some.injEq] at hchild
      obtain ⟨⟨hpc, -⟩, hend⟩ := hchild
      exact hexit hend (by simp [hpc])

/-- A thread moves, and its child stays where it is. -/
theorem moved_worker {event : Output.WorkerEvent} {semid : κ} (hbuf : semid ≠ ids.SEMbuf)
    (hstep : Output.step ids fs p (.worker i j event) = some q) (hsafe : q.overrun = false) :
    ∃ c next, Moved semid p q i c next ∧ next.pc = c.pc := by
  simp only [Output.step, Option.ite_none_left_eq_some] at hstep
  obtain ⟨c, hi, hrest⟩ := Option.bind_eq_some_iff.mp hstep.2
  obtain ⟨w, hj, hworker⟩ := Option.bind_eq_some_iff.mp hrest
  cases event with
  | searchTest =>
      simp only [Output.workerStep, Option.ite_none_right_eq_some] at hworker
      obtain ⟨-, hsearch⟩ := hworker
      split at hsearch
      · cases hsearch
        cases hsafe
      · cases hsearch
        exact ⟨c, _, ⟨hi, rfl, rfl, rfl, rfl, fun hzero => ⟨rfl, hzero⟩⟩, rfl⟩
      · cases hsearch
        exact ⟨c, _, ⟨hi, rfl, rfl, rfl, rfl, fun hzero => ⟨rfl, hzero⟩⟩, rfl⟩
  | waits =>
      simp only [Output.workerStep] at hworker
      split at hworker
      · obtain ⟨after, hwaits, rfl⟩ := Option.map_eq_some_iff.mp hworker
        obtain ⟨hvalue, hadj⟩ := waits_frame hwaits hbuf
        exact ⟨c, _, ⟨hi, rfl, rfl, rfl, rfl, fun hzero => ⟨hvalue, hadj.trans hzero⟩⟩, rfl⟩
      · cases hworker
  | write n =>
      simp only [Output.workerStep] at hworker
      split at hworker
      · cases hworker
        exact ⟨c, _, ⟨hi, rfl, rfl, rfl, rfl, fun hzero => ⟨rfl, hzero⟩⟩, rfl⟩
      · cases hworker
  | signals =>
      simp only [Output.workerStep] at hworker
      split at hworker
      · cases hworker
        obtain ⟨hvalue, hadj⟩ := signals_frame p.semval c.semadj hbuf
        exact ⟨c, _, ⟨hi, rfl, rfl, rfl, rfl, fun hzero => ⟨hvalue, hadj.trans hzero⟩⟩, rfl⟩
      · cases hworker

omit [DecidableEq κ] in
/-- A semaphore that neither the children nor the threads use has another value. -/
theorem live_semval {requests : List Item} {after : κ → Nat}
    (h : Output.Live ids fs requests p) (hbuf : after ids.SEMbuf = p.semval ids.SEMbuf)
    (hfr : ∀ dirpath, after (ids.SEMfr dirpath) = p.semval (ids.SEMfr dirpath)) :
    Output.Live ids fs requests { p with semval := after } := by
  obtain ⟨hgood, hopens⟩ := h
  refine ⟨⟨hgood.safe, hgood.items, hgood.serves, hgood.sound, ⟨?_, hgood.locked.adj⟩,
    hgood.accounted⟩, ⟨hopens.owes, ?_, ?_⟩⟩
  · rw [← hgood.locked.value]
    exact congrArg (· + _) hbuf
  · intro item hitem
    have hfree := hopens.free item hitem
    rw [← hfr item.dirpath] at hfree
    exact hfree
  · intro item hitem
    have hbounded := hopens.bounded item hitem
    rw [← hfr item.dirpath] at hbounded
    exact hbounded

end Processes

section Front

/-- The bytes of a request in the segment. -/
def bytes (item : Item) : List UInt8 := item.dirpath ++ space :: item.keyword

/-- The items of a list of requests; the exit command has none. -/
def items (requests : List (List UInt8)) : List Item :=
  requests.filterMap fun r => splitItem (r ++ [0])

/-- What `Exit` knows of a child. -/
def frontChild (stage : Stage) (c : Output.Child κ) : Exit.Child where
  item := bytes c.curItem
  pc :=
    match stage with
    | .childTest => .childTest
    | .childsPlay => if c.pc = .exited then .exited true else .childsPlay
    | .dropped => .exited false

/-- The system as `Exit` has it: the queue, `main` and the outside of the
children. -/
def front (s : State κ) : Exit.State where
  server := s.server
  pc := s.pc
  curItem := s.processes.curItem.map bytes
  children := List.zipWith frontChild s.stages s.processes.children
  added := s.added

theorem zipWith_set {α β γ : Type} (f : α → β → γ) {as : List α} {bs : List β} {i : Nat} {a : α}
    (ha : as[i]? = some a) (b : β) :
    List.zipWith f as (bs.set i b) = (List.zipWith f as bs).set i (f a b) := by
  apply List.ext_getElem?
  intro n
  simp only [List.getElem?_zipWith, List.getElem?_set]
  by_cases hn : i = n
  · subst hn
    by_cases hlt : i < bs.length
    · obtain ⟨hless, rfl⟩ := List.getElem?_eq_some_iff.mp ha
      simp [hlt, hless]
    · simp [hlt]
  · simp [hn]

theorem set_zipWith {α β γ : Type} (f : α → β → γ) {as : List α} {bs : List β} {i : Nat} {b : β}
    (hb : bs[i]? = some b) (a : α) :
    List.zipWith f (as.set i a) bs = (List.zipWith f as bs).set i (f a b) := by
  rw [List.zipWith_comm, zipWith_set (fun b a => f a b) hb, List.zipWith_comm]

/-- A client's requests leave room in the segment, and the server can serve them. -/
structure Fits (fs : FileSystem) (requests : List (List UInt8)) : Prop where
  room : 17 + weight requests < rqSIZE
  small : Output.Small fs (items requests)
  few : (items requests).length < SEMVMX

/-- The invariant. -/
structure Whole (host : Host κ) (fs : FileSystem) (s : State κ) : Prop where
  queued : ∃ k pending z, Exit.Queued (front s) k pending z
  live : Output.Live host.toIds fs (dequeued s.processes) s.processes
  requests : s.processes.requests = []
  length : s.stages.length = s.processes.children.length
  waiting : ∀ (i : Nat) (c : Output.Child κ), s.stages[i]? ≠ some .childsPlay →
    s.processes.children[i]? = some c → c.pc = .waits
  split : ∀ item ∈ dequeued s.processes, splitItem (bytes item ++ [0]) = some item
  apart : ∀ c ∈ s.processes.children, c.semadj host.SEMrq = 0
  owns : s.semadj host.SEMrq ≤ 0 ∧ ∀ semid, semid ≠ host.SEMrq → s.semadj semid = 0
  sending : Sending host fs s
  fits : Fits fs (s.clients.flatMap (Client.asks fs))

variable {host : Host κ} {fs : FileSystem} {s t : State κ}

theorem front_items (h : s.stages.length = s.processes.children.length) :
    (front s).children.map Exit.Child.item ++ (front s).curItem.toList =
      (dequeued s.processes).map bytes := by
  have hchildren : (List.zipWith frontChild s.stages s.processes.children).map Exit.Child.item =
      s.processes.children.map fun c => bytes c.curItem := by
    rw [List.map_zipWith]
    apply List.ext_getElem?
    intro n
    simp only [List.getElem?_zipWith, List.getElem?_map, frontChild]
    cases hn : s.processes.children[n]? with
    | none => cases s.stages[n]? <;> rfl
    | some c =>
        have hlt := (List.getElem?_eq_some_iff.mp hn).1
        rw [← h] at hlt
        simp [List.getElem?_eq_getElem hlt]
  simp only [front, dequeued, hchildren, List.map_append, List.map_map, Function.comp_def]
  cases s.processes.curItem <;> rfl

theorem items_append (first second : List (List UInt8)) :
    items (first ++ second) = items first ++ items second := List.filterMap_append

/-- What was appended is what was taken out and what is pending. -/
theorem Whole.items_added (h : Whole host fs s) {k z : Nat} {pending : List (List UInt8)}
    (hq : Exit.Queued (front s) k pending z) :
    items s.added = dequeued s.processes ++ items pending := by
  have hadded : s.added = (front s).children.map Exit.Child.item ++ (front s).curItem.toList ++
      pending := hq.added
  rw [hadded, front_items h.length, items_append]
  congr 1
  have hsame : ((dequeued s.processes).map bytes).filterMap (fun r => splitItem (r ++ [0])) =
      (dequeued s.processes).map id := by
    rw [List.filterMap_map]
    exact List.filterMap_eq_map_iff_forall_eq_some.mpr h.split
  rw [items, hsame, List.map_id]

/-- What was taken out is part of what the clients ask for. -/
theorem Whole.dequeued_subperm (h : Whole host fs s) :
    (dequeued s.processes).Subperm (items (s.clients.flatMap (Client.asks fs))) := by
  obtain ⟨k, pending, z, hq⟩ := h.queued
  have hperm := h.sending.sent.filterMap fun r => splitItem (r ++ [0])
  have hall : items (s.added ++ s.clients.flatMap (Client.rest fs)) =
      dequeued s.processes ++ (items pending ++ items (s.clients.flatMap (Client.rest fs))) := by
    rw [items_append, h.items_added hq, List.append_assoc]
  refine List.Subperm.trans ?_ hperm.subperm
  rw [show (s.added ++ s.clients.flatMap (Client.rest fs)).filterMap
    (fun r => splitItem (r ++ [0])) = _ from hall]
  exact (List.sublist_append_left _ _).subperm

theorem Whole.small (h : Whole host fs s) : Output.Small fs (dequeued s.processes) := by
  have hsub := h.dequeued_subperm.subset
  exact ⟨fun item hitem => h.fits.small.many item (hsub hitem),
    fun item hitem => h.fits.small.fit item (hsub hitem),
    fun item hitem => h.fits.small.results item (hsub hitem)⟩

theorem Whole.few (h : Whole host fs s) : (dequeued s.processes).length < SEMVMX :=
  h.dequeued_subperm.length_le.trans_lt h.fits.few

end Front

section Clients

variable {host : Host κ} {fs : FileSystem} {s t : State κ} {i : Nat} {c next : Client κ}

/-- A client moves: what the parts of the invariant need. -/
theorem whole_client_move (h : Whole host fs s) (hi : s.clients[i]? = some c) (next : Client κ)
    (hargs : next.args = c.args) {server : Server} {added : List (List UInt8)} {after : κ → Nat}
    (hbuf : after host.SEMbuf = s.processes.semval host.SEMbuf)
    (hfr : ∀ dirpath, after (host.SEMfr dirpath) = s.processes.semval (host.SEMfr dirpath))
    (ht : t = { s with
      clients := s.clients.set i next
      server
      added
      processes := { s.processes with semval := after } })
    (hqueued : ∃ k pending z, Exit.Queued (front t) k pending z) (hsending : Sending host fs t) :
    Whole host fs t := by
  subst ht
  refine ⟨hqueued, live_semval h.live hbuf hfr, h.requests, h.length, h.waiting, h.split, h.apart,
    h.owns, hsending, ?_⟩
  rw [flatMap_asks_set hi next hargs]
  exact h.fits

/-- There is room for what a client still has to send. -/
theorem Whole.room (h : Whole host fs s) (hc : c ∈ s.clients) {r : List UInt8}
    (hr : r ∈ c.rest fs) : 17 + weight (s.added ++ [r]) < rqSIZE := by
  have hmem : r ∈ s.clients.flatMap (Client.rest fs) := List.mem_flatMap.mpr ⟨c, hc, hr⟩
  have hone : r.length + 1 ≤ weight (s.clients.flatMap (Client.rest fs)) :=
    List.le_sum_of_mem (List.mem_map.mpr ⟨r, hmem, rfl⟩)
  have hall : weight (s.added ++ s.clients.flatMap (Client.rest fs)) =
      weight (s.clients.flatMap (Client.asks fs)) :=
    (h.sending.sent.map _).sum_eq
  have hroom := h.fits.room
  rw [weight_append] at hall
  rw [weight_append, weight_singleton]
  omega

/-- `AddReq` of a client that has its turn. -/
theorem Whole.addReq (h : Whole host fs s) {r : List UInt8} (hr : Admissible r)
    (hroom : 17 + weight (s.added ++ [r]) < rqSIZE) :
    ∃ shm, s.addReq r =
        { s with server := { s.server with shm }, added := s.added ++ [r] } ∧
      ∃ k pending z, Exit.Queued (front (s.addReq r)) k pending z := by
  obtain ⟨k, pending, z, hq⟩ := h.queued
  have hsize : 17 + weight s.added + z = rqSIZE := hq.size
  have hfit : r.length + 1 ≤ z := by
    rw [weight_append, weight_singleton] at hroom
    omega
  have hshm : s.server.shm = image k pending z := hq.shm
  have hadd : Queue.addReq s.server.shm r =
      some (image k (pending ++ [r]) (z - (r.length + 1))) := by
    rw [hshm]
    exact addReq_image k pending z r hq.clean hfit
  have hnext : s.addReq r = { s with
      server := { s.server with shm := image k (pending ++ [r]) (z - (r.length + 1)) }
      added := s.added ++ [r] } := by
    simp only [State.addReq, hadd, State.checked]
  have happend : Exit.append (front s) r = some (front (s.addReq r)) := by
    have hguard : 17 + weight ((front s).added ++ [r]) < rqSIZE := hroom
    have hsame : (front s).server.shm = s.server.shm := rfl
    rw [Exit.append, if_pos hguard, hsame, hadd, Option.map_some, hnext]
    rfl
  exact ⟨_, hnext, _, _, _, (Exit.queued_append hq hr happend).1⟩

theorem Sending.inside_le (h : Sending host fs s) : s.clients.countP Client.inside ≤ 1 := by
  have hlocked := h.locked
  omega

/-- A client goes on inside. -/
theorem whole_quiet (h : Whole host fs s) (hi : s.clients[i]? = some c) {pc : ClientPc}
    (hbefore : c.inside = true) (hinside : Client.inside { c with pc } = true)
    (hrest : Client.rest fs { c with pc } = c.rest fs)
    (hready : Client.Ready host.malloc fs { c with pc }) :
    Whole host fs (s.setClient i { c with pc }) := by
  have hmem := List.mem_of_getElem? hi
  apply whole_client_move h hi { c with pc } rfl
  · rfl
  · intro dirpath
    rfl
  · rfl
  · exact h.queued
  · apply sending_client h.sending hi []
    · rfl
    · exact (List.append_nil _).symm
    · rfl
    · rfl
    · exact hready
    · exact hrest.symm
    · rw [hinside, hbefore]
      rfl
    · rw [hinside, ← hbefore]
      exact h.sending.adj c hmem
    · exact h.sending.others c hmem
    · obtain ⟨turns, sent, htogether⟩ := h.sending.together
      have hstay := htogether.stay h.sending.inside_le hi hbefore hinside rfl [] hrest.symm
      rw [List.append_nil, List.append_nil] at hstay
      exact ⟨turns, sent, hstay⟩

/-- A client inside appends a request. -/
theorem whole_add (h : Whole host fs s) (hi : s.clients[i]? = some c) {pc : ClientPc}
    {r : List UInt8} (hbefore : c.inside = true) (hinside : Client.inside { c with pc } = true)
    (hrest : c.rest fs = r :: Client.rest fs { c with pc })
    (hready : Client.Ready host.malloc fs { c with pc }) (hr : Admissible r) :
    Whole host fs ((s.addReq r).setClient i { c with pc }) := by
  have hmem := List.mem_of_getElem? hi
  have hroom := h.room hmem (r := r) (by simp [hrest])
  obtain ⟨shm, hadd, hqueued⟩ := h.addReq hr hroom
  rw [hadd] at hqueued ⊢
  apply whole_client_move h hi { c with pc } rfl
  · rfl
  · intro dirpath
    rfl
  · rfl
  · exact hqueued
  · apply sending_client h.sending hi [r]
    · rfl
    · rfl
    · rfl
    · rfl
    · exact hready
    · exact hrest
    · rw [hinside, hbefore]
      rfl
    · rw [hinside, ← hbefore]
      exact h.sending.adj c hmem
    · exact h.sending.others c hmem
    · obtain ⟨turns, sent, htogether⟩ := h.sending.together
      exact ⟨turns, _, htogether.stay h.sending.inside_le hi hbefore hinside rfl [r] hrest⟩

variable [DecidableEq κ]

/-- The turn of a client ends, and its end gives nothing back. -/
theorem whole_leave (h : Whole host fs s) (hi : s.clients[i]? = some c) (hpc : c.pc = .signals) :
    Whole host fs
      ((s.setSemval (undo (SysVSem.signals host.SEMrq s.processes.semval c.semadj).1
        (SysVSem.signals host.SEMrq s.processes.semval c.semadj).2)).setClient i
          { c with pc := .exited, semadj := fun _ => 0 }) := by
  have hmem := List.mem_of_getElem? hi
  have hready := h.sending.ready c hmem
  have hbefore : c.inside = true := by simp [Client.inside, hpc]
  have hadj := h.sending.adj c hmem
  rw [hbefore] at hadj
  have hzero : s.processes.semval host.SEMrq = 0 := by
    have hlocked := h.sending.locked
    have hsome : 0 < s.clients.countP Client.inside := List.countP_pos_iff.mpr ⟨c, hmem, hbefore⟩
    omega
  have hsmall : s.processes.semval host.SEMrq < SEMVMX := by
    rw [hzero]
    decide
  obtain ⟨hvalue, hback⟩ := signals_eq c.semadj hsmall
  have hundo : undo (SysVSem.signals host.SEMrq s.processes.semval c.semadj).1
      (SysVSem.signals host.SEMrq s.processes.semval c.semadj).2 host.SEMrq = 1 := by
    rw [undo_zero, hvalue, hzero]
    rw [hback, hadj]
    rfl
  have hother (semid : κ) (hne : semid ≠ host.SEMrq) :
      undo (SysVSem.signals host.SEMrq s.processes.semval c.semadj).1
        (SysVSem.signals host.SEMrq s.processes.semval c.semadj).2 semid =
          s.processes.semval semid := by
    obtain ⟨hsame, hkept⟩ := signals_frame s.processes.semval c.semadj hne
    rw [undo_zero, hsame]
    rw [hkept]
    exact h.sending.others c hmem semid hne
  apply whole_client_move h hi { c with pc := .exited, semadj := fun _ => 0 } rfl
  · exact hother host.SEMbuf host.rq_buf.symm
  · intro dirpath
    exact hother (host.SEMfr dirpath) (host.rq_fr dirpath)
  · rfl
  · exact h.queued
  · apply sending_client h.sending hi []
    · rfl
    · exact (List.append_nil _).symm
    · rfl
    · rfl
    · exact ⟨hready.buffer, hready.file, by simp⟩
    · simp [Client.rest, hpc]
    · rw [hbefore, hzero]
      exact congrArg (· + 0) hundo
    · rfl
    · intro semid _
      rfl
    · obtain ⟨turns, sent, htogether⟩ := h.sending.together
      refine ⟨_, [], htogether.leave h.sending.inside_le hi hbefore rfl rfl rfl ?_⟩
      simp [Client.rest, hpc]

/-- The turn of a client begins. -/
theorem whole_enter (h : Whole host fs s) (hi : s.clients[i]? = some c) (hpc : c.pc = .waits)
    {after : (κ → Nat) × (κ → Int)}
    (hwaits : SysVSem.waits host.SEMrq s.processes.semval c.semadj = some after) :
    Whole host fs
      ((s.setSemval after.1).setClient i { c with pc := .branch, semadj := after.2 }) := by
  obtain ⟨hpos, hvalue, hadj⟩ := waits_cases hwaits
  have hmem := List.mem_of_getElem? hi
  have hready := h.sending.ready c hmem
  have houtside : c.inside = false := by simp [Client.inside, hpc]
  have hfree : s.clients.countP Client.inside = 0 := by
    have hlocked := h.sending.locked
    omega
  apply whole_client_move h hi { c with pc := .branch, semadj := after.2 } rfl
  · exact (waits_frame hwaits host.rq_buf.symm).1
  · intro dirpath
    exact (waits_frame hwaits (host.rq_fr dirpath)).1
  · rfl
  · exact h.queued
  · apply sending_client h.sending hi []
    · rfl
    · exact (List.append_nil _).symm
    · rfl
    · rfl
    · exact ⟨hready.buffer, hready.file, by simp⟩
    · simp [Client.rest, hpc, Client.asks]
    · have hin : Client.inside { c with pc := .branch, semadj := after.2 } = true := rfl
      rw [houtside, hin]
      show after.1 host.SEMrq + 1 = s.processes.semval host.SEMrq + 0
      omega
    · show after.2 host.SEMrq = 1
      rw [hadj, h.sending.adj c hmem, houtside]
      rfl
    · intro semid hne
      show after.2 semid = 0
      rw [(waits_frame hwaits hne).2]
      exact h.sending.others c hmem semid hne
    · obtain ⟨turns, sent, htogether⟩ := h.sending.together
      refine ⟨turns, sent, htogether.enter hfree hi ?_ rfl rfl⟩
      simp [Client.ended, hpc]

theorem whole_clientStep {event : ClientEvent} (h : Whole host fs s) (hi : s.clients[i]? = some c)
    (hstep : clientStep host fs s i c event = some t) : Whole host fs t := by
  rcases client_cases h.sending hi hstep with ⟨after, hpc, hwaits, rfl⟩ |
      ⟨pc, hbefore, hinside, hrest, hready, rfl⟩ |
      ⟨pc, r, hbefore, hinside, hrest, hready, hr, rfl⟩ | ⟨hpc, rfl⟩
  · exact whole_enter h hi hpc hwaits
  · exact whole_quiet h hi hbefore hinside hrest hready
  · exact whole_add h hi hbefore hinside hrest hready hr
  · exact whole_leave h hi hpc

end Clients

section Main

variable {host : Host κ} {fs : FileSystem} {s t : State κ} {pc stay leave : Exit.MainPc}

/-- `main` goes to another place. -/
theorem whole_place (h : Whole host fs s) (hup : s.pc ≠ .returned)
    (hqueued : ∃ k pending z, Exit.Queued (front { s with pc }) k pending z) :
    Whole host fs { s with pc } := by
  have hsending : Sending host fs { s with pc } :=
    ⟨h.sending.ready, h.sending.locked, fun _ => h.sending.up hup, h.sending.adj,
      h.sending.others, h.sending.sent, h.sending.together⟩
  exact ⟨hqueued, h.live, h.requests, h.length, h.waiting, h.split, h.apart, h.owns, hsending,
    h.fits⟩

/-- A test for the exit command, in the system as in `Exit`. -/
theorem whole_test (h : Whole host fs s) (hup : s.pc ≠ .returned) (block : Mem)
    (hexit : ∀ none, noExit s.server.shm = some none →
      Exit.mainStep block (front s) =
        some (front { s with pc := if none then stay else leave })) :
    Whole host fs (s.test stay leave) := by
  obtain ⟨k, pending, z, hq⟩ := h.queued
  have hno : noExit s.server.shm = some (decide (∀ r ∈ pending, ¬ Exit.Stops r)) := hq.noExit
  have hmain := hexit _ hno
  obtain ⟨⟨k', pending', hqueued⟩, -, -⟩ := Exit.queued_main hq hmain
  simp only [State.test, State.checked, hno]
  exact whole_place h hup ⟨k', pending', z, hqueued⟩

/-- The semaphores of the clients are not touched. -/
theorem Sending.clear [DecidableEq κ] (h : Sending host fs s) {semid : κ} (hne : semid ≠ host.SEMrq)
    (ht : t.clients = s.clients.map fun c =>
      { c with semadj := Function.update c.semadj semid 0 })
    (hadded : t.added = s.added) (hup : s.pc ≠ .returned)
    (hvalue : t.processes.semval host.SEMrq = s.processes.semval host.SEMrq) :
    Sending host fs t := by
  have hcount : t.clients.countP Client.inside = s.clients.countP Client.inside := by
    rw [ht, List.countP_map]
    rfl
  have hrest : t.clients.flatMap (Client.rest fs) = s.clients.flatMap (Client.rest fs) := by
    rw [ht, List.flatMap_map]
    rfl
  have hasks : t.clients.flatMap (Client.asks fs) = s.clients.flatMap (Client.asks fs) := by
    rw [ht, List.flatMap_map]
    rfl
  constructor
  · intro c hc
    rw [ht] at hc
    obtain ⟨d, hd, rfl⟩ := List.mem_map.mp hc
    have hready := h.ready d hd
    exact ⟨hready.buffer, hready.file, hready.rest⟩
  · rw [hvalue, hcount]
    exact h.locked
  · intro _
    rw [hvalue, hcount]
    exact h.up hup
  · intro c hc
    rw [ht] at hc
    obtain ⟨d, hd, rfl⟩ := List.mem_map.mp hc
    exact (Function.update_of_ne hne.symm ..).trans (h.adj d hd)
  · intro c hc other hother
    rw [ht] at hc
    obtain ⟨d, hd, rfl⟩ := List.mem_map.mp hc
    by_cases hsame : other = semid
    · rw [hsame]
      exact Function.update_self ..
    · exact (Function.update_of_ne hsame ..).trans (h.others d hd other hother)
  · rw [hadded, hrest, hasks]
    exact h.sent
  · obtain ⟨turns, sent, htogether⟩ := h.together
    refine ⟨turns, sent, ?_, ?_, ?_, ?_⟩
    · have hended : (t.clients.filter Client.ended).map (Client.asks fs) =
          (s.clients.filter Client.ended).map (Client.asks fs) := by
        rw [ht, ended_asks, ended_asks, List.map_map]
        rfl
      rw [hended]
      exact htogether.order
    · rw [hadded]
      exact htogether.queue
    · intro c hc hin
      rw [ht] at hc
      obtain ⟨d, hd, rfl⟩ := List.mem_map.mp hc
      exact htogether.turn d hd hin
    · rw [hcount]
      exact htogether.between

/-- A child that has ended has ended for `Exit` too. -/
theorem Whole.anyEnded (h : Whole host fs s) (hended : s.anyEnded = true) :
    (front s).children.any Exit.Child.ended = true := by
  simp only [State.anyEnded, Bool.or_eq_true, List.any_eq_true, decide_eq_true_eq] at hended
  have hmem {i : Nat} {stage : Stage} {c : Output.Child κ} (hstage : s.stages[i]? = some stage)
      (hi : s.processes.children[i]? = some c) : frontChild stage c ∈ (front s).children := by
    apply List.mem_of_getElem? (i := i)
    simp [front, List.getElem?_zipWith, hstage, hi]
  rw [List.any_eq_true]
  rcases hended with ⟨stage, hstage, rfl⟩ | ⟨c, hc, hexited⟩
  · obtain ⟨i, hi⟩ := List.getElem?_of_mem hstage
    obtain ⟨c, hc⟩ : ∃ c, s.processes.children[i]? = some c := by
      have hlt := (List.getElem?_eq_some_iff.mp hi).1
      rw [h.length] at hlt
      exact ⟨_, List.getElem?_eq_getElem hlt⟩
    exact ⟨_, hmem hi hc, by simp [frontChild, Exit.Child.ended]⟩
  · obtain ⟨i, hi⟩ := List.getElem?_of_mem hc
    have hstage : s.stages[i]? = some .childsPlay := by
      by_contra hnot
      rw [h.waiting i c hnot hi] at hexited
      cases hexited
    exact ⟨_, hmem hstage hi, by simp [frontChild, Exit.Child.ended, hexited]⟩

/-- The server ends: it takes back the unit of `SEMrq` if nobody has it. -/
theorem whole_returns (h : Whole host fs s)
    (hqueued : ∃ k pending z, Exit.Queued (front { s with pc := .returned }) k pending z) :
    Whole host fs s.returns := by
  have hother (semid : κ) (hne : semid ≠ host.SEMrq) :
      undo s.processes.semval s.semadj semid = s.processes.semval semid :=
    undo_zero (h.owns.2 semid hne)
  have hless : undo s.processes.semval s.semadj host.SEMrq ≤ s.processes.semval host.SEMrq :=
    undo_neg h.owns.1
  have hlocked := h.sending.locked
  have hsending : Sending host fs s.returns := by
    refine ⟨h.sending.ready, ?_, fun hup => absurd rfl hup, h.sending.adj, h.sending.others,
      h.sending.sent, h.sending.together⟩
    show undo s.processes.semval s.semadj host.SEMrq + s.clients.countP Client.inside ≤ 1
    omega
  refine ⟨hqueued, ?_, h.requests, h.length, h.waiting, h.split, h.apart, ?_, hsending, h.fits⟩
  · apply live_semval h.live
    · exact hother host.SEMbuf host.rq_buf.symm
    · intro dirpath
      exact hother (host.SEMfr dirpath) (host.rq_fr dirpath)
  · exact ⟨le_refl 0, fun _ _ => rfl⟩

theorem front_children_append (h : s.stages.length = s.processes.children.length) (stage : Stage)
    (c : Output.Child κ) :
    List.zipWith frontChild (s.stages ++ [stage]) (s.processes.children ++ [c]) =
      List.zipWith frontChild s.stages s.processes.children ++ [frontChild stage c] := by
  rw [List.zipWith_append h]
  rfl

variable [DecidableEq κ]

/-- `fork`: the child is the one `Exit` and `Output` have. -/
theorem whole_fork (h : Whole host fs s) (hpc : s.pc = .fork) {item : Item}
    (hcur : s.processes.curItem = some item) :
    Whole host fs (s.forks item .childTest (fun _ => 0) .parentTest) := by
  let child : Output.Child κ := ⟨item, .waits, [], fun _ => 0⟩
  obtain ⟨k, pending, z, hq⟩ := h.queued
  have hmain : Exit.mainStep [] (front s) =
      some (front (s.forks item .childTest (fun _ => 0) .parentTest)) := by
    have hchildren := front_children_append h.length .childTest child
    simp only [Exit.mainStep, front, hpc, hcur, Option.map_some, State.forks]
    rw [hchildren]
    rfl
  obtain ⟨⟨k', pending', hqueued⟩, -, -⟩ := Exit.queued_main hq hmain
  have hstep : Output.step host.toIds fs s.processes .fork =
      some (s.forks item .childTest (fun _ => 0) .parentTest).processes := by
    simp [Output.step, h.live.1.safe, hcur, State.forks]
  have hitems : dequeued (s.forks item .childTest (fun _ => 0) .parentTest).processes =
      dequeued s.processes := by
    simp [dequeued, State.forks, hcur]
  have hsending : Sending host fs (s.forks item .childTest (fun _ => 0) .parentTest) :=
    ⟨h.sending.ready, h.sending.locked, fun _ => h.sending.up (by simp [hpc]), h.sending.adj,
      h.sending.others, h.sending.sent, h.sending.together⟩
  refine ⟨⟨k', pending', z, hqueued⟩, ?_, h.requests, ?_, ?_, ?_, ?_, h.owns, hsending, h.fits⟩
  · rw [hitems]
    exact ⟨Output.good_fork h.live.1 hstep, Output.opens_fork h.live.2 hstep⟩
  · simp [State.forks, h.length]
  · intro i c hstage hi
    simp only [State.forks] at hstage hi
    rw [List.getElem?_append] at hstage hi
    split at hi
    · rename_i hlt
      rw [if_pos (h.length ▸ hlt)] at hstage
      exact h.waiting i c hstage hi
    · rw [List.getElem?_singleton, Option.ite_none_right_eq_some] at hi
      rw [← Option.some.inj hi.2]
  · rw [hitems]
    exact h.split
  · intro c hc
    rcases List.mem_append.mp hc with hc | hc
    · exact h.apart c hc
    · rw [List.mem_singleton.mp hc]

omit [DecidableEq κ] in
/-- `dequeueItem` with a zero-filled block, in the system as in `Exit`. -/
theorem Whole.dequeueItem (h : Whole host fs s) (hpc : s.pc = .dequeue) :
    ∃ item server, Queue.dequeueItem zeroBlock s.server = some (item, server) ∧
      s.processes.curItem = none ∧ splitItem (bytes item ++ [0]) = some item ∧
      Exit.mainStep zeroBlock (front s) =
        some { front s with server, curItem := some (bytes item), pc := .forkTest } := by
  obtain ⟨k, pending, z, hq⟩ := h.queued
  have hplace := hq.place
  rw [show (front s).pc = .dequeue from hpc] at hplace
  obtain ⟨hnone, r, rest, rfl, hgo⟩ := hplace
  have hsearch : SearchReq r := by
    rcases hq.admissible r List.mem_cons_self with hsearch | rfl
    · exact hsearch
    · exact absurd Exit.stops_exitReq hgo
  obtain ⟨hlength, hspace, hclean⟩ := hsearch
  obtain ⟨path, keyword, hr, hpath⟩ := List.eq_append_cons_of_mem hspace
  have hserver : s.server = ⟨image k (r :: rest) z, k⟩ := by
    rw [← show s.server.shm = _ from hq.shm, ← show s.server.RQptr = _ from hq.ptr]
  obtain ⟨server, hitem⟩ := dequeueItem_image k k r path keyword rest z hr hpath hlength hq.clean
    hq.room (Nat.le_refl k)
  rw [← hserver] at hitem
  have hbytes : bytes ⟨path, keyword⟩ = r := hr.symm
  have hblock : List.length zeroBlock = 1024 := zeroBlock_length
  have hshm := hq.dequeueShm hgo hblock
  have hsame : dequeueShm zeroBlock s.server = some (r, server) := by
    rw [dequeueItem_eq] at hitem
    obtain ⟨loops, -, hitem⟩ := Option.bind_eq_some_iff.mp hitem
    obtain ⟨str, -, hitem⟩ := Option.bind_eq_some_iff.mp hitem
    obtain ⟨item, -, hitem⟩ := Option.bind_eq_some_iff.mp hitem
    obtain ⟨⟨copied, after⟩, hdequeue, hitem⟩ := Option.bind_eq_some_iff.mp hitem
    cases hitem
    rw [show dequeueShm zeroBlock s.server = _ from hshm] at hdequeue
    rw [show dequeueShm zeroBlock s.server = _ from hshm]
    cases hdequeue
    rfl
  refine ⟨⟨path, keyword⟩, server, hitem, ?_, ?_, ?_⟩
  · simpa [front] using hnone
  · rw [hbytes, hr]
    apply splitItem_spec path keyword hpath
    rw [← hr]
    exact hclean.2.2
  · simp only [Exit.mainStep, front, hpc, hblock, if_true, hsame, Option.map_some, hbytes]

/-- The processes after `dequeueItem`. -/
theorem live_dequeueItem {p : Output.State κ} (item : Item)
    (h : Output.Live host.toIds fs (dequeued p) p) (hrequests : p.requests = [])
    (hcur : p.curItem = none) :
    Output.Live host.toIds fs (dequeued p ++ [item])
      (Output.semIni (host.SEMfr item.dirpath) 1 { p with curItem := some item }) := by
  let q : Output.State κ := { p with requests := [item] }
  have hgood : Output.Good host.toIds fs (dequeued p ++ [item]) q := by
    refine ⟨h.1.safe, ?_, h.1.serves, h.1.sound, h.1.locked, h.1.accounted⟩
    simp [q, dequeued, hcur]
  have hopens : Output.Opens host.toIds q := ⟨h.2.owes, h.2.free, h.2.bounded⟩
  have hstep : Output.step host.toIds fs q .dequeueItem =
      some (Output.semIni (host.SEMfr item.dirpath) 1 { p with curItem := some item }) := by
    simp [Output.step, h.1.safe, q, hcur, hrequests]
  exact ⟨Output.good_dequeueItem hgood hstep, Output.opens_dequeueItem hopens hstep⟩

theorem semIni_asks (s : State κ) (semid : κ) (val : Nat) :
    (s.semIni semid val).clients.flatMap (Client.asks fs) =
      s.clients.flatMap (Client.asks fs) := by
  rw [State.semIni, List.flatMap_map]
  rfl

theorem dequeued_semIni (p : Output.State κ) (semid : κ) (val : Nat) :
    dequeued (Output.semIni semid val p) = dequeued p := by
  simp [dequeued, Output.semIni, Function.comp_def]

theorem whole_dequeue (h : Whole host fs s) (hpc : s.pc = .dequeue) {item : Item} {server : Server}
    (hcur : s.processes.curItem = none) (hsplit : splitItem (bytes item ++ [0]) = some item)
    (hmain : Exit.mainStep zeroBlock (front s) =
      some { front s with server, curItem := some (bytes item), pc := .forkTest }) :
    Whole host fs ({ s with
      server
      pc := .forkTest
      processes := { s.processes with curItem := some item } }.semIni
        (host.SEMfr item.dirpath) 1) := by
  let semid := host.SEMfr item.dirpath
  let clear (c : Output.Child κ) : Output.Child κ :=
    { c with semadj := Function.update c.semadj semid 0 }
  obtain ⟨k, pending, z, hq⟩ := h.queued
  obtain ⟨⟨k', pending', hqueued⟩, -, -⟩ := Exit.queued_main hq hmain
  have hne : semid ≠ host.SEMrq := host.rq_fr item.dirpath
  have hchildren : List.zipWith frontChild s.stages (s.processes.children.map clear) =
      List.zipWith frontChild s.stages s.processes.children := by
    rw [List.zipWith_map_right]
    rfl
  have hitems : dequeued (Output.semIni semid 1 { s.processes with curItem := some item }) =
      dequeued s.processes ++ [item] := by
    rw [dequeued_semIni]
    simp [dequeued, hcur]
  have hfront : front ({ s with
      server
      pc := .forkTest
      processes := { s.processes with curItem := some item } }.semIni semid 1) =
      { front s with server, curItem := some (bytes item), pc := .forkTest } := by
    simp only [front, State.semIni, Output.semIni, Option.map_some]
    rw [hchildren]
  refine ⟨⟨k', pending', z, ?_⟩, ?_, h.requests, ?_, ?_, ?_, ?_, ⟨?_, ?_⟩, ?_, ?_⟩
  · rw [hfront]
    exact hqueued
  · have hlive := live_dequeueItem item h.live h.requests hcur
    rw [← hitems] at hlive
    exact hlive
  · simpa [State.semIni, Output.semIni] using h.length
  · intro i c hstage hi
    have hmap : (s.processes.children.map clear)[i]? = some c := hi
    rw [List.getElem?_map] at hmap
    obtain ⟨d, hd, rfl⟩ := Option.map_eq_some_iff.mp hmap
    exact h.waiting i d hstage hd
  · intro other hother
    rcases List.mem_append.mp (hitems ▸ hother) with hold | hnew
    · exact h.split other hold
    · rw [List.mem_singleton.mp hnew]
      exact hsplit
  · intro c hc
    obtain ⟨d, hd, rfl⟩ := List.mem_map.mp hc
    exact (Function.update_of_ne hne.symm ..).trans (h.apart d hd)
  · exact (le_of_eq (Function.update_of_ne hne.symm ..)).trans h.owns.1
  · intro other hother
    by_cases hsame : other = semid
    · rw [hsame]
      exact Function.update_self ..
    · exact (Function.update_of_ne hsame ..).trans (h.owns.2 other hother)
  · apply h.sending.clear hne
    · rfl
    · rfl
    · simp [hpc]
    · exact Function.update_of_ne hne.symm ..
  · rw [semIni_asks]
    exact h.fits

/-- Every step of `main` with zero-filled blocks keeps the invariant. -/
theorem whole_mainStep (h : Whole host fs s) (hstep : mainStep host zeroBlock s = some t) :
    Whole host fs t := by
  obtain ⟨k, pending, z, hq⟩ := h.queued
  have hplace : Exit.Placed (front s).curItem pending s.pc := hq.place
  have hblock : List.length zeroBlock = 1024 := zeroBlock_length
  have hreturned (hmain : Exit.mainStep zeroBlock (front s) =
      some (front { s with pc := .returned })) : Whole host fs s.returns := by
    obtain ⟨⟨k', pending', hqueued⟩, -, -⟩ := Exit.queued_main hq hmain
    exact whole_returns h ⟨k', pending', z, hqueued⟩
  cases hpc : s.pc with
  | loopTest =>
      simp only [mainStep, hpc, Option.some.injEq] at hstep
      subst hstep
      apply whole_test h (by simp [hpc]) zeroBlock
      intro none hno
      simp [Exit.mainStep, front, hpc, hno]
  | count =>
      have hcount : charcount s.server.shm = some (1 + pending.length) := by
        rw [show s.server.shm = _ from hq.shm]
        exact charcount_image k pending z hq.clean
      simp only [mainStep, hpc, hcount, State.checked, Option.some.injEq] at hstep
      subst hstep
      have hmain : Exit.mainStep zeroBlock (front s) = some (front { s with
          pc := if 1 < 1 + pending.length then .retest else .loopTest }) := by
        simp [Exit.mainStep, front, hpc, hcount]
      obtain ⟨⟨k', pending', hqueued⟩, -, -⟩ := Exit.queued_main hq hmain
      exact whole_place h (by simp [hpc]) ⟨k', pending', z, hqueued⟩
  | retest =>
      simp only [mainStep, hpc, Option.some.injEq] at hstep
      subst hstep
      apply whole_test h (by simp [hpc]) zeroBlock
      intro none hno
      simp [Exit.mainStep, front, hpc, hno]
  | dequeue =>
      obtain ⟨item, server, hdequeue, hcur, hsplit, hmain⟩ := h.dequeueItem hpc
      simp only [mainStep, hpc, hblock, if_true, hdequeue, State.checked,
        Option.some.injEq] at hstep
      subst hstep
      exact whole_dequeue h hpc hcur hsplit hmain
  | forkTest =>
      simp only [mainStep, hpc, Option.some.injEq] at hstep
      subst hstep
      apply whole_test h (by simp [hpc]) zeroBlock
      intro none hno
      simp [Exit.mainStep, front, hpc, hno]
  | fork =>
      rw [hpc] at hplace
      have hsome : s.processes.curItem.isSome = true := by
        simpa [front, Exit.Placed] using hplace
      obtain ⟨item, hcur⟩ := Option.isSome_iff_exists.mp hsome
      simp only [mainStep, hpc, hcur, State.checked, Option.some.injEq] at hstep
      subst hstep
      exact whole_fork h hpc hcur
  | childTest =>
      rw [hpc] at hplace
      have hno : noExit s.server.shm = some false := by
        refine hq.noExit.trans ?_
        obtain ⟨r, hr, hbad⟩ := hplace
        rw [decide_eq_false]
        exact fun hall => hall r hr hbad
      simp only [mainStep, hpc, hno, State.checked, Bool.false_eq_true, if_false,
        Option.some.injEq] at hstep
      subst hstep
      apply hreturned
      simp [Exit.mainStep, front, hpc, hno]
  | parentTest =>
      simp only [mainStep, hpc, Option.some.injEq] at hstep
      subst hstep
      apply whole_test h (by simp [hpc]) zeroBlock
      intro none hno
      simp [Exit.mainStep, front, hpc, hno]
  | wait =>
      simp only [mainStep, hpc, Option.ite_none_right_eq_some, Option.some.injEq] at hstep
      obtain ⟨hended, rfl⟩ := hstep
      apply hreturned
      have hany : (front s).children.any Exit.Child.ended = true := h.anyEnded hended
      simp only [Exit.mainStep, show (front s).pc = .wait from hpc, hany, if_true]
      rfl
  | returned => simp [mainStep, hpc] at hstep
  | exited => simp [mainStep, hpc] at hstep

end Main

end Cse420.Server.System
