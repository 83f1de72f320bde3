import Cse420.Lib.Machine
import Cse420.Queue.Fifo

/-!
`main` of `server.c` while clients append requests. `main` looks for the exit
command before everything it does: in the polling loop, again before
`dequeueItem`, before `fork`, and after it in the parent and in the child. So
the command overtakes what is queued in front of it, and what has not reached
its child by then is dropped.
-/

namespace Cse420.Server.Exit

open CMemory Machine Queue

/-- The places of `main` in the server process. The value of `n` is part of the
place: it is zero up to `fork` and at `childTest`, and not zero at `parentTest`
and `wait`. -/
inductive MainPc where
  | loopTest
  | count
  | retest
  | dequeue
  | forkTest
  | fork
  | childTest
  | parentTest
  | wait
  | returned
  | exited
  deriving DecidableEq

inductive ChildPc where
  | childTest
  | childsPlay
  /-- `served` is whether the process went through `ChildsPlay`. -/
  | exited (served : Bool)
  deriving DecidableEq

/-- A forked child with its copy of the request in `curItem`. -/
structure Child where
  item : List UInt8
  pc : ChildPc

def Child.ended (c : Child) : Bool := c.pc = .exited true || c.pc = .exited false

/-- `added` is no variable of the program: it records what clients appended. -/
structure State where
  server : Server
  pc : MainPc
  curItem : Option (List UInt8)
  children : List Child
  added : List (List UInt8)

inductive Event where
  /-- A client appends a search request. -/
  | add (r : List UInt8)
  /-- A client appends the exit command. -/
  | exit
  /-- `main` goes on; `block` is what `malloc` returns if it is asked. -/
  | main (block : Mem)
  | child (i : Nat)

/-- An atomic `AddReq`, made only when the segment has room for it. -/
def append (s : State) (r : List UInt8) : Option State :=
  if 17 + weight (s.added ++ [r]) < rqSIZE then
    (addReq s.server.shm r).map fun shm =>
      { s with server := { s.server with shm }, added := s.added ++ [r] }
  else none

/-- One step of `main`. The parent frees `curItem` only after its test, but it
does not read it after `fork`. -/
def mainStep (block : Mem) (s : State) : Option State :=
  match s.pc with
  | .loopTest =>
      (noExit s.server.shm).map fun none =>
        { s with pc := if none then .count else .forkTest }
  | .count =>
      (charcount s.server.shm).map fun n =>
        { s with pc := if 1 < n then .retest else .loopTest }
  | .retest =>
      (noExit s.server.shm).map fun none =>
        { s with pc := if none then .dequeue else .forkTest }
  | .dequeue =>
      if block.length = 1024 then
        (dequeueShm block s.server).map fun (r, server) =>
          { s with server, curItem := some r, pc := .forkTest }
      else none
  | .forkTest =>
      (noExit s.server.shm).map fun none =>
        { s with pc := if none then .fork else .childTest }
  | .fork =>
      s.curItem.map fun item =>
        { s with
          curItem := none
          children := s.children ++ [⟨item, .childTest⟩]
          pc := .parentTest }
  | .childTest => do
      -- `n` is zero here as well, so the server itself would call `ChildsPlay`
      if ← noExit s.server.shm then
        s.curItem.map fun item =>
          { s with
            curItem := none
            children := s.children ++ [⟨item, .childsPlay⟩]
            pc := .exited }
      else some { s with pc := .returned }
  | .parentTest =>
      (noExit s.server.shm).map fun none =>
        { s with pc := if none then .loopTest else .wait }
  | .wait =>
      if s.children.any Child.ended then
        some { s with pc := .returned }
      else none
  | .returned => none
  | .exited => none

/-- One step of a child: its own test and the call that depends on it, then the
end of `ChildsPlay`. -/
def childStep (shm : Mem) (c : Child) : Option Child :=
  match c.pc with
  | .childTest =>
      (noExit shm).map fun none =>
        { c with pc := if none then .childsPlay else .exited false }
  | .childsPlay => some { c with pc := .exited true }
  | .exited _ => none

def step (s : State) : Event → Option State
  | .add r => if SearchReq r then append s r else none
  | .exit => append s exitReq
  | .main block => mainStep block s
  | .child i => do
      let c ← s.children[i]?
      let c ← childStep s.server.shm c
      return { s with children := s.children.set i c }

/-- A step of `main` or of a child, not of a client. -/
def Event.ofServer : Event → Bool
  | .add _ | .exit => false
  | .main _ | .child _ => true

/-- `main` after its set-up of a fresh segment. -/
def start : Option State :=
  (initShm (List.replicate rqSIZE 0)).map fun server => ⟨server, .loopTest, none, [], []⟩

/-- The child has been through its test and called `ChildsPlay`. -/
def Child.served (c : Child) : Bool := c.pc = .childsPlay || c.pc = .exited true

/-- The requests passed to `ChildsPlay`. -/
def served (s : State) : List (List UInt8) :=
  (s.children.filter Child.served).map Child.item

/-- The search requests among those that were appended. -/
def searches (added : List (List UInt8)) : List (List UInt8) := added.filter (· ≠ exitReq)

/-- The server stops at a string with `exit` in it, the command or not. -/
def Stops (r : List UInt8) : Prop := exitReq <:+: r

instance (r : List UInt8) : Decidable (Stops r) :=
  inferInstanceAs (Decidable (exitReq <:+: r))

/-- What the place of `main` says about the queue and the item. -/
def Placed (curItem : Option (List UInt8)) (pending : List (List UInt8)) : MainPc → Prop
  | .loopTest | .count | .parentTest => curItem = none
  | .retest => curItem = none ∧ pending ≠ []
  | .dequeue => curItem = none ∧ ∃ r rest, pending = r :: rest ∧ ¬ Stops r
  | .forkTest => curItem.isSome ∨ ∃ r ∈ pending, Stops r
  | .fork => curItem.isSome
  | .childTest | .wait | .returned => ∃ r ∈ pending, Stops r
  | .exited => False

theorem Placed.append {curItem : Option (List UInt8)} {pending : List (List UInt8)}
    {pc : MainPc} (h : Placed curItem pending pc) (r : List UInt8) :
    Placed curItem (pending ++ [r]) pc := by
  have hmore : (∃ q ∈ pending, Stops q) → ∃ q ∈ pending ++ [r], Stops q := by
    rintro ⟨q, hq, hstop⟩
    exact ⟨q, List.mem_append_left _ hq, hstop⟩
  cases pc with
  | loopTest => exact h
  | count => exact h
  | parentTest => exact h
  | retest => exact ⟨h.1, by simp⟩
  | dequeue =>
      obtain ⟨hnone, q, rest, hq, hgo⟩ := h
      exact ⟨hnone, q, rest ++ [r], by simp [hq], hgo⟩
  | forkTest => exact Or.imp_right hmore h
  | fork => exact h
  | childTest => exact hmore h
  | wait => exact hmore h
  | returned => exact hmore h
  | exited => exact h

/-- The invariant: every request that was added has a child, is the item of
`main` or is still in the segment, in this order. A string that stops the
server is never taken out. -/
structure Queued (s : State) (k : Nat) (pending : List (List UInt8)) (z : Nat) : Prop where
  shm : s.server.shm = image k pending z
  ptr : s.server.RQptr = k
  admissible : ∀ r ∈ pending, Admissible r
  added : s.added = s.children.map Child.item ++ s.curItem.toList ++ pending
  size : 17 + weight s.added + z = rqSIZE
  room : 0 < z
  taken : ∀ r ∈ s.children.map Child.item ++ s.curItem.toList, ¬ Stops r
  place : Placed s.curItem pending s.pc
  forked : s.pc = .parentTest ∨ s.pc = .wait → s.children ≠ []

theorem Queued.clean {s : State} {k z : Nat} {pending : List (List UInt8)}
    (h : Queued s k pending z) : ∀ r ∈ pending, Clean r :=
  fun r hr => (h.admissible r hr).clean

/-- The test of `main` and of the children. -/
theorem Queued.noExit {s : State} {k z : Nat} {pending : List (List UInt8)}
    (h : Queued s k pending z) :
    Queue.noExit s.server.shm = some (decide (∀ r ∈ pending, ¬ Stops r)) := by
  obtain ⟨b, hb, hiff⟩ := noExit_image k pending z h.clean h.room
  rw [h.shm, hb]
  cases b with
  | false =>
      obtain ⟨r, hr, hstop⟩ := hiff.mp rfl
      have hnot : ¬ ∀ r ∈ pending, ¬ Stops r := fun hall => hall r hr hstop
      simp [hnot]
  | true =>
      have hall : ∀ r ∈ pending, ¬ Stops r := by
        intro r hr hstop
        cases hiff.mpr ⟨r, hr, hstop⟩
      rw [decide_eq_true hall]

theorem queued_start {s : State} (h : start = some s) :
    Queued s 0 [] (rqSIZE - 17) := by
  rw [start, initShm_zeros] at h
  cases h
  constructor
  · rfl
  · rfl
  · simp
  · rfl
  · obtain ⟨n, hn⟩ := rqSIZE_eq
    simp only [weight, List.map_nil, List.sum_nil]
    omega
  · obtain ⟨n, hn⟩ := rqSIZE_eq
    omega
  · simp
  · rfl
  · simp

theorem stops_exitReq : Stops exitReq := List.infix_refl _

theorem queued_append {s t : State} {k z : Nat} {pending : List (List UInt8)}
    {r : List UInt8} (h : Queued s k pending z) (hr : Admissible r)
    (hstep : append s r = some t) :
    Queued t k (pending ++ [r]) (z - (r.length + 1)) ∧ t.children = s.children ∧
      t.added = s.added ++ [r] := by
  simp only [append, Option.ite_none_right_eq_some] at hstep
  obtain ⟨hroom, hadd⟩ := hstep
  have hsize := h.size
  rw [weight_append, weight_singleton] at hroom
  rw [h.shm, addReq_image k pending z r h.clean (by omega)] at hadd
  cases hadd
  refine ⟨?_, rfl, rfl⟩
  constructor
  · rfl
  · exact h.ptr
  · rw [List.forall_mem_append, List.forall_mem_singleton]
    exact ⟨h.admissible, hr⟩
  · simp [h.added]
  · simp only [weight_append, weight_singleton]
    omega
  · omega
  · exact h.taken
  · exact h.place.append r
  · exact h.forked

/-- `main` goes to another place. -/
theorem Queued.move {s : State} {k z : Nat} {pending : List (List UInt8)} {pc : MainPc}
    (h : Queued s k pending z) (hplace : Placed s.curItem pending pc)
    (hforked : pc = .parentTest ∨ pc = .wait → s.children ≠ []) :
    Queued { s with pc := pc } k pending z :=
  ⟨h.shm, h.ptr, h.admissible, h.added, h.size, h.room, h.taken, hplace, hforked⟩

/-- `dequeueItem` takes the oldest request out, which does not stop the server. -/
theorem Queued.dequeueShm {s : State} {k z : Nat} {r : List UInt8}
    {rest : List (List UInt8)} {block : Mem} (h : Queued s k (r :: rest) z)
    (hgo : ¬ Stops r) (hblock : block.length = 1024) :
    Queue.dequeueShm block s.server =
      some (r, ⟨image (k + (r.length + 1)) rest z, k + (r.length + 1)⟩) := by
  have hr : r.length ≤ block.length := by
    rcases h.admissible r List.mem_cons_self with hsearch | rfl
    · have := hsearch.1
      omega
    · exact absurd stops_exitReq hgo
  have hserver : s.server = ⟨image k (r :: rest) z, k⟩ := by
    rw [← h.shm, ← h.ptr]
  rw [hserver]
  exact dequeueShm_image block k k r rest z h.clean hr h.room (Nat.le_refl _)

/-- The oldest request has become the current item. -/
theorem Queued.dequeued {s : State} {k z : Nat} {r : List UInt8} {rest : List (List UInt8)}
    (h : Queued s k (r :: rest) z) (hnone : s.curItem = none) (hgo : ¬ Stops r) :
    Queued { s with
      server := ⟨image (k + (r.length + 1)) rest z, k + (r.length + 1)⟩
      curItem := some r
      pc := .forkTest } (k + (r.length + 1)) rest z := by
  have hadded := h.added
  have htaken := h.taken
  rw [hnone] at hadded htaken
  simp only [Option.toList_none, List.append_nil] at hadded htaken
  constructor
  · rfl
  · rfl
  · exact fun q hq => h.admissible q (List.mem_cons_of_mem _ hq)
  · simp [hadded]
  · exact h.size
  · exact h.room
  · intro q hq
    rcases List.mem_append.mp hq with hq | hq
    · exact htaken q hq
    · simp only [Option.toList_some, List.mem_singleton] at hq
      rw [hq]
      exact hgo
  · exact .inl rfl
  · simp

/-- The current item has gone to a child. -/
theorem Queued.forkedChild {s : State} {k z : Nat} {pending : List (List UInt8)}
    {item : List UInt8} (h : Queued s k pending z) (hitem : s.curItem = some item) :
    Queued { s with
      curItem := none
      children := s.children ++ [⟨item, .childTest⟩]
      pc := .parentTest } k pending z := by
  have hadded := h.added
  have htaken := h.taken
  rw [hitem] at hadded htaken
  constructor
  · exact h.shm
  · exact h.ptr
  · exact h.admissible
  · simpa using hadded
  · exact h.size
  · exact h.room
  · simpa using htaken
  · rfl
  · simp

theorem queued_main {s t : State} {k z : Nat} {pending : List (List UInt8)} {block : Mem}
    (h : Queued s k pending z) (hstep : mainStep block s = some t) :
    (∃ k pending, Queued t k pending z) ∧ served t = served s ∧ t.added = s.added := by
  have hplace := h.place
  have hstop : ¬ (∀ r ∈ pending, ¬ Stops r) → ∃ r ∈ pending, Stops r := by
    intro hnot
    simpa using hnot
  cases hpc : s.pc with
  | loopTest =>
      simp only [mainStep, hpc, h.noExit, Option.map_some, Option.some.injEq] at hstep
      rw [hpc] at hplace
      subst hstep
      refine ⟨⟨k, pending, h.move ?_ (by split <;> simp)⟩, rfl, rfl⟩
      split
      · exact hplace
      · rename_i hsome
        exact .inr (hstop (by simpa using hsome))
  | count =>
      simp only [mainStep, hpc, h.shm, charcount_image k pending z h.clean, Option.map_some,
        Option.some.injEq] at hstep
      rw [hpc] at hplace
      subst hstep
      refine ⟨⟨k, pending, h.move ?_ (by split <;> simp)⟩, rfl, rfl⟩
      split
      · rename_i hmany
        refine ⟨hplace, ?_⟩
        rintro rfl
        simp at hmany
      · exact hplace
  | retest =>
      simp only [mainStep, hpc, h.noExit, Option.map_some, Option.some.injEq] at hstep
      rw [hpc] at hplace
      subst hstep
      refine ⟨⟨k, pending, h.move ?_ (by split <;> simp)⟩, rfl, rfl⟩
      split
      · rename_i hnone
        rw [decide_eq_true_eq] at hnone
        refine ⟨hplace.1, ?_⟩
        cases pending with
        | nil => exact absurd rfl hplace.2
        | cons r rest => exact ⟨r, rest, rfl, hnone r List.mem_cons_self⟩
      · rename_i hsome
        exact .inr (hstop (by simpa using hsome))
  | dequeue =>
      rw [hpc] at hplace
      obtain ⟨hnone, r, rest, rfl, hgo⟩ := hplace
      simp only [mainStep, hpc, Option.ite_none_right_eq_some] at hstep
      obtain ⟨hblock, hdeq⟩ := hstep
      rw [h.dequeueShm hgo hblock] at hdeq
      cases hdeq
      exact ⟨⟨k + (r.length + 1), rest, h.dequeued hnone hgo⟩, rfl, rfl⟩
  | forkTest =>
      simp only [mainStep, hpc, h.noExit, Option.map_some, Option.some.injEq] at hstep
      rw [hpc] at hplace
      subst hstep
      refine ⟨⟨k, pending, h.move ?_ (by split <;> simp)⟩, rfl, rfl⟩
      split
      · rename_i hnone
        rw [decide_eq_true_eq] at hnone
        rcases hplace with hitem | ⟨r, hr, hbad⟩
        · exact hitem
        · exact absurd hbad (hnone r hr)
      · rename_i hsome
        exact hstop (by simpa using hsome)
  | fork =>
      simp only [mainStep, hpc] at hstep
      obtain ⟨item, hitem, rfl⟩ := Option.map_eq_some_iff.mp hstep
      refine ⟨⟨k, pending, h.forkedChild hitem⟩, ?_, rfl⟩
      simp [served, Child.served]
  | childTest =>
      rw [hpc] at hplace
      have hfalse : decide (∀ r ∈ pending, ¬ Stops r) = false := by
        obtain ⟨r, hr, hbad⟩ := hplace
        simp only [decide_eq_false_iff_not]
        exact fun hall => hall r hr hbad
      simp only [mainStep, hpc, h.noExit, hfalse] at hstep
      cases hstep
      exact ⟨⟨k, pending, h.move hplace (by simp)⟩, rfl, rfl⟩
  | parentTest =>
      simp only [mainStep, hpc, h.noExit, Option.map_some, Option.some.injEq] at hstep
      rw [hpc] at hplace
      subst hstep
      refine ⟨⟨k, pending, h.move ?_ fun _ => h.forked (.inl hpc)⟩, rfl, rfl⟩
      split
      · exact hplace
      · rename_i hsome
        exact hstop (by simpa using hsome)
  | wait =>
      simp only [mainStep, hpc, Option.ite_none_right_eq_some, Option.some.injEq] at hstep
      rw [hpc] at hplace
      obtain ⟨-, rfl⟩ := hstep
      exact ⟨⟨k, pending, h.move hplace (by simp)⟩, rfl, rfl⟩
  | returned => simp [mainStep, hpc] at hstep
  | exited => simp [mainStep, hpc] at hstep

theorem child_cases {s t : State} {i : Nat} (h : step s (.child i) = some t) :
    ∃ c next, s.children[i]? = some c ∧ childStep s.server.shm c = some next ∧
      t = { s with children := s.children.set i next } := by
  obtain ⟨c, hi, hrest⟩ := Option.bind_eq_some_iff.mp h
  obtain ⟨next, hnext, ht⟩ := Option.bind_eq_some_iff.mp hrest
  exact ⟨c, next, hi, hnext, (Option.some.inj ht).symm⟩

theorem childStep_item {shm : Mem} {c next : Child} (h : childStep shm c = some next) :
    next.item = c.item := by
  unfold childStep at h
  split at h
  · obtain ⟨b, -, rfl⟩ := Option.map_eq_some_iff.mp h
    rfl
  · cases h
    rfl
  · cases h

/-- Once a string that stops the server is queued, no child starts its work. -/
theorem childStep_served {shm : Mem} {c next : Child} (hexit : noExit shm = some false)
    (h : childStep shm c = some next) : next.served = c.served := by
  unfold childStep at h
  split at h
  · rename_i hpc
    rw [hexit] at h
    cases h
    simp [Child.served, hpc]
  · rename_i hpc
    cases h
    simp [Child.served, hpc]
  · cases h

theorem queued_child {s t : State} {k z i : Nat} {pending : List (List UInt8)}
    (h : Queued s k pending z) (hstep : step s (.child i) = some t) :
    Queued t k pending z ∧ t.added = s.added ∧
      ((∃ r ∈ pending, Stops r) → served t = served s) := by
  obtain ⟨c, next, hi, hnext, rfl⟩ := child_cases hstep
  have hitems : (s.children.set i next).map Child.item = s.children.map Child.item :=
    map_set_same hi Child.item (childStep_item hnext)
  refine ⟨?_, rfl, ?_⟩
  · have hadded := h.added
    have htaken := h.taken
    rw [← hitems] at hadded htaken
    refine ⟨h.shm, h.ptr, h.admissible, hadded, h.size, h.room, htaken, h.place, ?_⟩
    intro hpc
    simpa using h.forked hpc
  · rintro ⟨r, hr, hbad⟩
    have hexit : noExit s.server.shm = some false := by
      rw [h.noExit, decide_eq_false]
      exact fun hall => hall r hr hbad
    have hpairs := map_set_same hi (fun c => (c.served, c.item))
      (Prod.ext (childStep_served hexit hnext) (childStep_item hnext))
    have hserved : ∀ children : List Child, (children.filter Child.served).map Child.item =
        ((children.map fun c => (c.served, c.item)).filter Prod.fst).map Prod.snd := by
      intro children
      simp [List.filter_map, Function.comp_def]
    simp only [served, hserved, hpairs]

/-- Every step keeps the invariant, and once the server is to stop it adds
nothing to what was passed to `ChildsPlay`. -/
theorem queued_step {s t : State} {event : Event} {k z : Nat} {pending : List (List UInt8)}
    (h : Queued s k pending z) (hstep : step s event = some t) :
    (∃ k pending z, Queued t k pending z) ∧ s.added <+: t.added ∧
      ((∃ r ∈ pending, Stops r) → served t = served s) := by
  cases event with
  | add r =>
      simp only [step, Option.ite_none_right_eq_some] at hstep
      obtain ⟨hq, hchildren, hadded⟩ := queued_append h (.inl hstep.1) hstep.2
      refine ⟨⟨_, _, _, hq⟩, ?_, fun _ => ?_⟩
      · rw [hadded]
        exact List.prefix_append _ _
      · simp only [served, hchildren]
  | exit =>
      obtain ⟨hq, hchildren, hadded⟩ := queued_append h (.inr rfl) hstep
      refine ⟨⟨_, _, _, hq⟩, ?_, fun _ => ?_⟩
      · rw [hadded]
        exact List.prefix_append _ _
      · simp only [served, hchildren]
  | main block =>
      obtain ⟨⟨k, pending, hq⟩, hserved, hadded⟩ := queued_main h hstep
      refine ⟨⟨k, pending, z, hq⟩, ?_, fun _ => hserved⟩
      rw [hadded]
  | child i =>
      obtain ⟨hq, hadded, hserved⟩ := queued_child h hstep
      refine ⟨⟨_, _, _, hq⟩, ?_, hserved⟩
      rw [hadded]

theorem queued_run {s t : State} {schedule : List Event}
    (h : ∃ k pending z, Queued s k pending z) (hrun : run step s schedule = some t) :
    ∃ k pending z, Queued t k pending z := by
  apply run_invariant (fun u => ∃ k pending z, Queued u k pending z) _ h hrun
  rintro u event next ⟨k, pending, z, hu⟩ hstep
  exact (queued_step hu hstep).1

/-- A string that stops the server is still in the segment. -/
theorem Queued.stop_pending {s : State} {k z : Nat} {pending : List (List UInt8)}
    (h : Queued s k pending z) {r : List UInt8} (hr : r ∈ s.added) (hstop : Stops r) :
    ∃ r ∈ pending, Stops r := by
  rw [h.added] at hr
  rcases List.mem_append.mp hr with hr | hr
  · exact absurd hstop (h.taken r hr)
  · exact ⟨r, hr, hstop⟩

/-- A state the server can be in with a string that stops it in the segment. -/
def Stopping (s : State) : Prop :=
  (∃ k pending z, Queued s k pending z) ∧ ∃ r ∈ s.added, Stops r

theorem stopping_step {s t : State} {event : Event} (h : Stopping s)
    (hstep : step s event = some t) : Stopping t ∧ served t = served s := by
  obtain ⟨⟨k, pending, z, hq⟩, r, hr, hstop⟩ := h
  obtain ⟨hnext, hprev, hserved⟩ := queued_step hq hstep
  exact ⟨⟨hnext, r, hprev.subset hr, hstop⟩, hserved (hq.stop_pending hr hstop)⟩

/-- What is passed to `ChildsPlay` is settled when the server is to stop. -/
theorem stopping_run {s t : State} {schedule : List Event} (h : Stopping s)
    (hrun : run step s schedule = some t) : Stopping t ∧ served t = served s := by
  apply run_invariant (fun u => Stopping u ∧ served u = served s) _ ⟨h, rfl⟩ hrun
  rintro u event next ⟨hu, hsame⟩ hstep
  obtain ⟨hnext, hserved⟩ := stopping_step hu hstep
  exact ⟨hnext, hserved.trans hsame⟩

theorem taken_searches {taken : List (List UInt8)} (h : ∀ r ∈ taken, ¬ Stops r) :
    searches taken = taken ∧ taken.count exitReq = 0 := by
  have hne : exitReq ∉ taken := fun hmem => h exitReq hmem stops_exitReq
  refine ⟨List.filter_eq_self.mpr ?_, List.count_eq_zero.mpr hne⟩
  intro r hr
  rw [decide_eq_true_eq]
  rintro rfl
  exact hne hr

/-- The searches added so far are those that were taken out and those that are
queued. -/
theorem Queued.searches {s : State} {k z : Nat} {pending : List (List UInt8)}
    (h : Queued s k pending z) :
    searches s.added = s.children.map Child.item ++ s.curItem.toList ++ searches pending := by
  rw [h.added, Exit.searches, List.filter_append]
  congr 1
  exact (taken_searches h.taken).1

/-- An exit command that was added is queued. -/
theorem Queued.exits {s : State} {k z : Nat} {pending : List (List UInt8)}
    (h : Queued s k pending z) : s.added.count exitReq = pending.count exitReq := by
  rw [h.added, List.count_append, (taken_searches h.taken).2, Nat.zero_add]

theorem searches_length (requests : List (List UInt8)) :
    (searches requests).length + requests.count exitReq = requests.length := by
  induction requests with
  | nil => rfl
  | cons r rest ih =>
      by_cases hr : r = exitReq
      · simp only [searches, hr, ne_eq, not_true_eq_false, decide_false, Bool.false_eq_true,
          not_false_eq_true, List.filter_cons_of_neg, List.count_cons_self, List.length_cons]
        simp only [searches, ne_eq] at ih
        omega
      · simp only [searches, hr, ne_eq, not_false_eq_true, decide_true, List.filter_cons_of_pos,
          List.length_cons, List.count_cons_of_ne]
        simp only [searches, ne_eq] at ih
        omega

/-- All searches added so far have been passed on exactly when nothing but exit
commands is queued, `main` holds no request and none waits in its child. -/
theorem Queued.served_perm_iff {s : State} {k z : Nat} {pending : List (List UInt8)}
    (h : Queued s k pending z) :
    (served s).Perm (Exit.searches s.added) ↔
      charcount s.server.shm = some (1 + s.added.count exitReq) ∧ s.curItem = none ∧
        ∀ c ∈ s.children, c.served = true := by
  have hcount : charcount s.server.shm = some (1 + pending.length) := by
    rw [h.shm]
    exact charcount_image k pending z h.clean
  have hle : (s.children.filter Child.served).length ≤ s.children.length :=
    List.length_filter_le _ _
  have hpending := searches_length pending
  rw [hcount, h.searches, h.exits, Option.some.injEq]
  constructor
  · intro hperm
    have hlen := hperm.length_eq
    simp only [served, List.length_map, List.length_append] at hlen
    refine ⟨by omega, ?_, ?_⟩
    · have hnone : s.curItem.toList.length = 0 := by omega
      cases hitem : s.curItem with
      | none => rfl
      | some item =>
          rw [hitem] at hnone
          cases hnone
    · apply List.length_filter_eq_length_iff.mp
      omega
  · rintro ⟨hone, hnone, hall⟩
    have hempty : Exit.searches pending = [] := List.length_eq_zero_iff.mp (by omega)
    have hfilter : s.children.filter Child.served = s.children :=
      List.filter_eq_self.mpr hall
    rw [hempty, hnone, served, hfilter]
    simp

theorem Queued.served_sublist {s : State} {k z : Nat} {pending : List (List UInt8)}
    (h : Queued s k pending z) : (served s).Sublist (Exit.searches s.added) := by
  rw [h.searches, List.append_assoc]
  apply List.Sublist.trans _ (List.sublist_append_left _ _)
  exact List.filter_sublist.map _

/-- The steps `main` and a child it forks have at most once the server is to
stop. -/
def MainPc.left : MainPc → Nat
  | .fork => 5
  | .count => 4
  | .loopTest | .retest | .dequeue | .parentTest => 3
  | .forkTest => 2
  | .childTest | .wait => 1
  | .returned | .exited => 0

/-- The steps the server has at most once it is to stop. -/
def State.left (s : State) : Nat := s.pc.left + s.children.countP (!·.ended)

theorem Stopping.noExit {s : State} (h : Stopping s) : noExit s.server.shm = some false := by
  obtain ⟨⟨k, pending, z, hq⟩, r, hr, hstop⟩ := h
  obtain ⟨q, hq', hbad⟩ := hq.stop_pending hr hstop
  rw [hq.noExit, decide_eq_false]
  exact fun hall => hall q hq' hbad

theorem main_nears {s t : State} {block : Mem} (h : Stopping s)
    (hstep : mainStep block s = some t) : t.left + 1 ≤ s.left := by
  have hexit := h.noExit
  cases hpc : s.pc with
  | count =>
      simp only [mainStep, hpc] at hstep
      obtain ⟨n, -, rfl⟩ := Option.map_eq_some_iff.mp hstep
      simp only [State.left, hpc]
      split <;> simp only [MainPc.left] <;> omega
  | dequeue =>
      simp only [mainStep, hpc, Option.ite_none_right_eq_some] at hstep
      obtain ⟨taken, -, rfl⟩ := Option.map_eq_some_iff.mp hstep.2
      simp only [State.left, hpc, MainPc.left]
      omega
  | fork =>
      simp only [mainStep, hpc] at hstep
      obtain ⟨item, -, rfl⟩ := Option.map_eq_some_iff.mp hstep
      simp only [State.left, hpc, MainPc.left, List.countP_append, List.countP_singleton]
      split <;> omega
  | wait =>
      simp only [mainStep, hpc, Option.ite_none_right_eq_some, Option.some.injEq] at hstep
      obtain ⟨-, rfl⟩ := hstep
      simp only [State.left, hpc, MainPc.left]
      omega
  | loopTest | retest | forkTest | parentTest =>
      simp only [mainStep, hpc, hexit, Option.map_some, Option.some.injEq] at hstep
      subst hstep
      simp only [State.left, hpc, Bool.false_eq_true, if_false, MainPc.left]
      omega
  | childTest =>
      simp only [mainStep, hpc, hexit] at hstep
      cases hstep
      simp only [State.left, hpc, MainPc.left]
      omega
  | returned => simp [mainStep, hpc] at hstep
  | exited => simp [mainStep, hpc] at hstep

/-- A child has one step left: the server is to stop. -/
theorem childStep_ended {shm : Mem} {c : Child} (hexit : noExit shm = some false) :
    (c.ended = false → ∃ next, childStep shm c = some next) ∧
      ∀ next, childStep shm c = some next → c.ended = false ∧ next.ended = true := by
  cases hpc : c.pc with
  | childTest => simp [childStep, hpc, hexit, Child.ended]
  | childsPlay => simp [childStep, hpc, Child.ended]
  | exited served => cases served <;> simp [childStep, hpc, Child.ended]

theorem append_left {s t : State} {r : List UInt8} (h : append s r = some t) :
    t.left = s.left := by
  simp only [append, Option.ite_none_right_eq_some] at h
  obtain ⟨shm, -, rfl⟩ := Option.map_eq_some_iff.mp h.2
  rfl

/-- Every step of the server brings its end nearer, and no step of a client takes
it away. -/
theorem stopping_left {s t : State} {event : Event} (h : Stopping s)
    (hstep : step s event = some t) : t.left + event.ofServer.toNat ≤ s.left := by
  cases event with
  | add r =>
      simp only [step, Option.ite_none_right_eq_some] at hstep
      exact le_of_eq (append_left hstep.2)
  | exit => exact le_of_eq (append_left hstep)
  | main block => exact main_nears h hstep
  | child i =>
      obtain ⟨c, next, hi, hnext, rfl⟩ := child_cases hstep
      obtain ⟨hbefore, hafter⟩ := (childStep_ended h.noExit).2 next hnext
      have hcount := countP_set_add hi next (!·.ended)
      simp only [hbefore, hafter, Bool.not_false, Bool.not_true, Bool.toNat_true,
        Bool.toNat_false] at hcount
      simp only [State.left, Event.ofServer, Bool.toNat_true]
      omega

/-- As long as `main` has not returned, it or the child it waits for has a
step. -/
theorem stopping_moves {s : State} (h : Stopping s) (hpc : s.pc ≠ .returned) :
    ∃ event t, event.ofServer = true ∧ step s event = some t := by
  have hexit := h.noExit
  obtain ⟨⟨k, pending, z, hq⟩, -⟩ := h
  have hplace := hq.place
  have hmain (block : Mem) {t : State} (hstep : mainStep block s = some t) :
      ∃ event t, event.ofServer = true ∧ step s event = some t := ⟨.main block, t, rfl, hstep⟩
  cases hat : s.pc with
  | loopTest | retest | forkTest | childTest | parentTest =>
      exact hmain [] (by simp only [mainStep, hat, hexit]; rfl)
  | count =>
      apply hmain []
      simp only [mainStep, hat, hq.shm, charcount_image k pending z hq.clean]
      rfl
  | dequeue =>
      rw [hat] at hplace
      obtain ⟨-, r, rest, rfl, hgo⟩ := hplace
      obtain ⟨block, hblock⟩ : ∃ block : Mem, block.length = 1024 :=
        ⟨List.replicate 1024 0, List.length_replicate⟩
      exact hmain block (by
        simp only [mainStep, hat, hblock, if_true, hq.dequeueShm hgo hblock]
        rfl)
  | fork =>
      rw [hat] at hplace
      obtain ⟨item, hitem⟩ := Option.isSome_iff_exists.mp hplace
      exact hmain [] (by simp only [mainStep, hat, hitem]; rfl)
  | wait =>
      cases hended : s.children.any Child.ended with
      | true => exact hmain [] (by simp only [mainStep, hat, hended]; rfl)
      | false =>
          -- the first child still has its test or `ChildsPlay` before it
          obtain ⟨c, rest, hchildren⟩ := List.exists_cons_of_ne_nil (hq.forked (.inr hat))
          have hc : c.ended = false := by
            rw [hchildren, List.any_cons, Bool.or_eq_false_iff] at hended
            exact hended.1
          obtain ⟨next, hnext⟩ := (childStep_ended hexit).1 hc
          refine ⟨.child 0, { s with children := next :: rest }, rfl, ?_⟩
          simp [step, hchildren, hnext]
  | returned => exact absurd hat hpc
  | exited =>
      rw [hat] at hplace
      exact hplace.elim

theorem start_eq :
    start = some ⟨⟨image 0 [] (rqSIZE - 17), 0⟩, .loopTest, none, [], []⟩ := by
  rw [start, initShm_zeros]
  rfl

theorem append_image {k z : Nat} {pending : List (List UInt8)} {r : List UInt8} {s : State}
    (h : Queued s k pending z) (hroom : r.length + 1 < z) :
    append s r = some { s with
      server := ⟨image k (pending ++ [r]) (z - (r.length + 1)), k⟩
      added := s.added ++ [r] } := by
  have hsize := h.size
  have hfit : 17 + weight (s.added ++ [r]) < rqSIZE := by
    rw [weight_append, weight_singleton]
    omega
  simp only [append, hfit, if_true, h.shm, addReq_image k pending z r h.clean
    (Nat.le_of_lt hroom), Option.map_some, h.ptr]

theorem rqSIZE_large : 2048 ≤ rqSIZE := by decide

/-- The segment with one request in it. -/
theorem run_add {r : List UInt8} (hr : SearchReq r) :
    ∃ server z, start.bind (run step · [.add r]) = some ⟨server, .loopTest, none, [], [r]⟩ ∧
      Queued ⟨server, .loopTest, none, [], [r]⟩ 0 [r] z ∧ 1000 ≤ z := by
  have hlarge := rqSIZE_large
  have hlen := hr.1
  have hq := queued_start start_eq
  have hadd := append_image (r := r) hq (by omega)
  refine ⟨_, _, ?_, (queued_append hq (.inl hr) hadd).1, by omega⟩
  rw [start_eq]
  simp [run, step, hr, hadd]

/-- From the loop `main` returns in three steps when it is to stop. -/
theorem loop_returns {s : State} (hpc : s.pc = .loopTest)
    (hexit : noExit s.server.shm = some false) (block : Mem) :
    run step s [.main block, .main block, .main block] = some { s with pc := .returned } := by
  simp [run, step, mainStep, hpc, hexit]

/-- The command is appended behind the only request before the server polls. -/
theorem run_add_exit {r : List UInt8} (hr : SearchReq r) :
    ∃ s, start.bind (run step · ([.add r] ++ .exit :: [.main [], .main [], .main []])) = some s ∧
      s.pc = .returned ∧ served s = [] := by
  obtain ⟨server, z, hadd, hq, hz⟩ := run_add hr
  have hfive : exitReq.length = 4 := by decide
  have hexit := append_image (r := exitReq) hq (by omega)
  obtain ⟨hu, -, -⟩ := queued_append hq (.inr rfl) hexit
  have hseen : noExit (image 0 ([r] ++ [exitReq]) (z - (exitReq.length + 1))) = some false := by
    refine hu.noExit.trans ?_
    rw [decide_eq_false]
    exact fun hall => hall exitReq (by simp) stops_exitReq
  obtain ⟨s₀, hstart, hfirst⟩ := Option.bind_eq_some_iff.mp hadd
  have hreturn := loop_returns (s := ⟨⟨image 0 ([r] ++ [exitReq]) (z - (exitReq.length + 1)), 0⟩,
    .loopTest, none, [], [r] ++ [exitReq]⟩) rfl hseen []
  refine ⟨_, Eq.trans ?_ hreturn, rfl, rfl⟩
  rw [hstart, Option.bind_some, run_append, hfirst, Option.bind_some, run]
  simp only [step, hexit, Option.bind_some]

/-- The steps of `main` and of the child for the only request. -/
def serveOne (block : Mem) : List Event :=
  [.main block, .main block, .main block, .main block, .main block, .main block, .child 0]

theorem run_serveOne {server : Server} {r : List UInt8} {z : Nat} {block : Mem}
    (h : Queued ⟨server, .loopTest, none, [], [r]⟩ 0 [r] z) (hgo : ¬ Stops r)
    (hblock : block.length = 1024) :
    run step ⟨server, .loopTest, none, [], [r]⟩ (serveOne block) =
      some ⟨⟨image (0 + (r.length + 1)) [] z, 0 + (r.length + 1)⟩, .parentTest, none,
        [⟨r, .childsPlay⟩], [r]⟩ := by
  have hbefore : noExit server.shm = some true := by
    refine h.noExit.trans ?_
    rw [decide_eq_true]
    simpa using hgo
  have hcount : charcount server.shm = some 2 := by
    rw [show server.shm = image 0 [r] z from h.shm]
    exact charcount_image 0 [r] z h.clean
  have hdeq : dequeueShm block server =
      some (r, ⟨image (0 + (r.length + 1)) [] z, 0 + (r.length + 1)⟩) :=
    h.dequeueShm hgo hblock
  have hafter : noExit (image (0 + (r.length + 1)) [] z) = some true := by
    obtain ⟨b, hb, hiff⟩ := noExit_image (0 + (r.length + 1)) [] z (by simp) h.room
    cases b with
    | true => exact hb
    | false => simp at hiff
  simp only [Nat.zero_add] at hdeq hafter ⊢
  simp [serveOne, run, step, mainStep, childStep, hbefore, hcount, hblock, hdeq, hafter]

theorem queued_serveOne {server : Server} {r : List UInt8} {z : Nat}
    (h : Queued ⟨server, .loopTest, none, [], [r]⟩ 0 [r] z) (hgo : ¬ Stops r) :
    Queued ⟨⟨image (0 + (r.length + 1)) [] z, 0 + (r.length + 1)⟩, .parentTest, none,
      [⟨r, .childsPlay⟩], [r]⟩ (0 + (r.length + 1)) [] z where
  shm := rfl
  ptr := rfl
  admissible := by simp
  added := rfl
  size := h.size
  room := h.room
  taken := by simpa using hgo
  place := rfl
  forked := by simp

/-- A schedule in which a client appends an exit command in the state `t`. From
then on the server has no more steps than `t.left`, and as long as `main` has not
returned it or a child has one; no search request is passed on twice, and all
those added before the command are passed on exactly when at that moment nothing
but earlier exit commands was queued, `main` held no request and every child was
past its own test. -/
theorem exit_overtakes_queue (first rest : List Event) (t s : State)
    (hfirst : start.bind (run step · first) = some t)
    (hrun : start.bind (run step · (first ++ .exit :: rest)) = some s) :
    rest.countP Event.ofServer ≤ t.left ∧
      (s.pc ≠ .returned → ∃ event next, event.ofServer = true ∧ step s event = some next) ∧
      (served s).Sublist (searches t.added) ∧
      ((served s).Perm (searches t.added) ↔
        charcount t.server.shm = some (1 + t.added.count exitReq) ∧ t.curItem = none ∧
          ∀ c ∈ t.children, c.served = true) := by
  obtain ⟨s₀, hstart, hfirst⟩ := Option.bind_eq_some_iff.mp hfirst
  rw [hstart, Option.bind_some, run_append, hfirst, Option.bind_some] at hrun
  obtain ⟨u, hexit, hrest⟩ := run_cons hrun
  obtain ⟨k, pending, z, ht⟩ := queued_run ⟨_, _, _, queued_start hstart⟩ hfirst
  obtain ⟨hu, hchildren, hadded⟩ := queued_append ht (.inr rfl) hexit
  have hstopping : Stopping u := by
    refine ⟨⟨_, _, _, hu⟩, exitReq, ?_, stops_exitReq⟩
    rw [hadded]
    simp
  obtain ⟨hs, hsettled⟩ := stopping_run hstopping hrest
  have hserved : served s = served t := by
    rw [hsettled]
    simp only [served, hchildren]
  have hbound : rest.countP Event.ofServer + s.left ≤ u.left :=
    run_countP_le Event.ofServer Stopping State.left
      (fun _ _ _ hv hstep => ⟨(stopping_step hv hstep).1, stopping_left hv hstep⟩) hstopping hrest
  have hleft : u.left = t.left := append_left hexit
  rw [hserved]
  exact ⟨by omega, stopping_moves hs, ht.served_sublist, ht.served_perm_iff⟩

/-- The command arrives when the only request has reached `ChildsPlay`. -/
theorem exit_overtakes_queue_served :
    ∃ t s, start.bind (run step · ([.add (text "/d is")] ++
        serveOne (List.replicate 1024 0))) = some t ∧
      start.bind (run step · (([.add (text "/d is")] ++ serveOne (List.replicate 1024 0)) ++
        .exit :: [.main [], .child 0, .main []])) = some s ∧
      s.pc = .returned ∧ (served s).Perm [text "/d is"] := by
  obtain ⟨server, z, hadd, hq, hz⟩ := run_add (r := text "/d is") (by decide)
  have hgo : ¬ Stops (text "/d is") := by decide
  have hserve := run_serveOne hq hgo (List.length_replicate (n := 1024) (a := (0 : UInt8)))
  have hfive : exitReq.length = 4 := by decide
  have hserved := queued_serveOne hq hgo
  have hlast := append_image (r := exitReq) hserved (by omega)
  obtain ⟨hu, -, -⟩ := queued_append hserved (.inr rfl) hlast
  have hseen := hu.noExit
  rw [decide_eq_false (fun hall => hall exitReq (by simp) stops_exitReq)] at hseen
  obtain ⟨t, ht, hadded, hcount, hitem, hall, s, hs, hreturned⟩ : ∃ t,
      start.bind (run step · ([.add (text "/d is")] ++ serveOne (List.replicate 1024 0))) =
        some t ∧
      t.added = [text "/d is"] ∧ charcount t.server.shm = some 1 ∧ t.curItem = none ∧
      (∀ c ∈ t.children, c.served = true) ∧
      ∃ s, run step t (.exit :: [.main [], .child 0, .main []]) = some s ∧ s.pc = .returned := by
    obtain ⟨s₀, hstart, hfirst⟩ := Option.bind_eq_some_iff.mp hadd
    refine ⟨⟨⟨image (0 + ((text "/d is").length + 1)) [] z, 0 + ((text "/d is").length + 1)⟩,
      .parentTest, none, [⟨text "/d is", .childsPlay⟩], [text "/d is"]⟩, ?_, rfl,
      charcount_image _ [] z (by simp), rfl, by simp [Child.served], ?_⟩
    · rw [hstart, Option.bind_some, run_append, hfirst]
      exact hserve
    · rw [run, step, hlast, Option.bind_some]
      simp only [run, step, mainStep, childStep, hseen]
      exact ⟨_, rfl, rfl⟩
  have hrun : start.bind (run step · (([.add (text "/d is")] ++
      serveOne (List.replicate 1024 0)) ++ .exit :: [.main [], .child 0, .main []])) = some s := by
    obtain ⟨s₀, hstart, ht⟩ := Option.bind_eq_some_iff.mp ht
    rw [hstart, Option.bind_some, run_append, ht]
    exact hs
  have hsearches : searches t.added = [text "/d is"] := by
    rw [hadded]
    decide
  have hexits : t.added.count exitReq = 0 := by
    rw [hadded]
    decide
  refine ⟨t, s, ht, hrun, hreturned, ?_⟩
  rw [← hsearches, (exit_overtakes_queue _ _ t s ht hrun).2.2.2, hexits]
  exact ⟨hcount, hitem, hall⟩

/-- A request and the exit command that are both there before the server polls:
it returns without having looked at the request. -/
theorem exit_before_poll_loses_request :
    ∃ t s, start.bind (run step · [.add (text "/d is")]) = some t ∧
      start.bind (run step ·
        ([.add (text "/d is")] ++ .exit :: [.main [], .main [], .main []])) = some s ∧
      s.pc = .returned ∧ ¬ (served s).Perm t.added := by
  have hr : SearchReq (text "/d is") := by decide
  obtain ⟨server, z, hadd, -, -⟩ := run_add hr
  obtain ⟨s, hrun, hret, hnone⟩ := run_add_exit hr
  refine ⟨_, s, hadd, hrun, hret, ?_⟩
  rw [hnone]
  simp

end Cse420.Server.Exit
